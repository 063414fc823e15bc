import FrogKernel.Framebuffer.Console
import FrogKernel.Lib.Int32

/-!
# The mouse (`devices/mouse/mouse.c`)

`mouse_callback` takes one byte at a time.  A byte without bit 3 is skipped
where a packet could start; the third byte of a packet moves the pointer.

Main result: `mouse_packets`, the callback reads the bytes as packets.
-/

namespace FrogKernel.Mouse

open FrogKernel.Console FrogKernel.Int32

/-- `mouse_state_t` -/
structure MouseState where
  x : Int
  y : Int
  left : Bool
  right : Bool
  middle : Bool
  leftClicked : Bool
  rightClicked : Bool
  middleClicked : Bool
  deriving DecidableEq

/-- `mouse` and the static variables; the packet holds its three bytes. -/
structure MouseT where
  mouse : MouseState
  mouseX : Int
  mouseY : Int
  mousePacket : BitVec 8 × BitVec 8 × BitVec 8
  mouseCycle : Nat

def noMouse : MouseState := ⟨0, 0, false, false, false, false, false, false⟩

/-- The variables before `mouse_init`. -/
def mouseZero : MouseT where
  mouse := noMouse
  mouseX := 0
  mouseY := 0
  mousePacket := (0, 0, 0)
  mouseCycle := 0

def mouseSetPos (s : MouseT) (x y : Int) : MouseT := { s with mouseX := x, mouseY := y }

/-- A byte less the bit of the first byte that `shift` moves to bit 8. -/
def delta (data flags : BitVec 8) (shift : Nat) : Int :=
  (data.toNat : Int) - ((flags.toNat <<< shift &&& 0x100 : Nat) : Int)

/-- A coordinate between 0 and the size of the screen, which is unsigned. -/
def bounded (size : Nat) (z : Int) : Int :=
  let z := if z < 0 then 0 else z
  if u32 z ≥ size then int32 (size - 1) else z

/-- `mouse_callback` on a screen of `width` by `height` pixels, with the byte
read from the port. -/
def mouseCallback (width height : Nat) (s : MouseT) (data : BitVec 8) : MouseT :=
  match s.mouseCycle with
  | 0 => { s with
      mousePacket := (data, s.mousePacket.2)
      mouseCycle := if data &&& 0x08 ≠ 0 then s.mouseCycle + 1 else s.mouseCycle }
  | 1 => { s with
      mousePacket := (s.mousePacket.1, data, s.mousePacket.2.2)
      mouseCycle := s.mouseCycle + 1 }
  | 2 =>
    let flags := s.mousePacket.1
    let dx := delta s.mousePacket.2.1 flags 4
    let dy := delta data flags 3
    let mouseX := bounded width (int32 (s.mouseX + dx))
    let mouseY := bounded height (int32 (s.mouseY - dy))
    let left := decide (flags &&& 0x01 ≠ 0)
    let right := decide (flags &&& 0x02 ≠ 0)
    let middle := decide (flags &&& 0x04 ≠ 0)
    { mousePacket := (flags, s.mousePacket.2.1, data)
      mouseCycle := 0
      mouseX, mouseY
      mouse := {
        leftClicked := left && !s.mouse.left
        rightClicked := right && !s.mouse.right
        middleClicked := middle && !s.mouse.middle
        left, right, middle
        x := mouseX
        y := mouseY } }
  | _ => s

def feed (width height : Nat) (s : MouseT) (bytes : List (BitVec 8)) : MouseT :=
  bytes.foldl (mouseCallback width height) s

/-! ## Bytes as packets -/

structure Packet where
  flags : BitVec 8
  xData : BitVec 8
  yData : BitVec 8

/-- The packets of a sequence of bytes; one that is not complete is not among
them. -/
def packets : List (BitVec 8) → List Packet
  | [] => []
  | b :: bytes =>
    if b.getLsbD 3 then
      match bytes with
      | b₁ :: b₂ :: bytes => ⟨b, b₁, b₂⟩ :: packets bytes
      | _ => []
    else packets bytes

/-- The deltas have nine bits, with their signs in the first byte. -/
def Packet.dx (p : Packet) : Int := (BitVec.ofBool (p.flags.getLsbD 4) ++ p.xData).toInt

def Packet.dy (p : Packet) : Int := (BitVec.ofBool (p.flags.getLsbD 5) ++ p.yData).toInt

/-- Where the pointer is, and which buttons are down. -/
structure Pointer where
  x : Int
  y : Int
  left : Bool
  right : Bool
  middle : Bool

def clamp (z lo hi : Int) : Int := max lo (min z hi)

def moved (width height : Nat) (q : Pointer) (p : Packet) : Pointer where
  x := clamp (q.x + p.dx) 0 (width - 1)
  y := clamp (q.y - p.dy) 0 (height - 1)
  left := p.flags.getLsbD 0
  right := p.flags.getLsbD 1
  middle := p.flags.getLsbD 2

/-- What a packet shows of a pointer that was at `q`. -/
def shown (width height : Nat) (q : Pointer) (p : Packet) : MouseState :=
  let q' := moved width height q p
  { x := q'.x
    y := q'.y
    left := q'.left
    right := q'.right
    middle := q'.middle
    leftClicked := q'.left && !q.left
    rightClicked := q'.right && !q.right
    middleClicked := q'.middle && !q.middle }

/-- What the packets show, one after the other. -/
def reports (width height : Nat) (q : Pointer) : List Packet → List MouseState
  | [] => []
  | p :: ps => shown width height q p :: reports width height (moved width height q p) ps

/-! ## Deltas and bounds -/

theorem flags_shift {shift bit : Nat} (hbit : shift = 4 ∧ bit = 4 ∨ shift = 3 ∧ bit = 5) :
    ∀ flags : BitVec 8,
      (flags.toNat <<< shift &&& 0x100) = if flags.getLsbD bit then 256 else 0 := by
  rcases hbit with ⟨rfl, rfl⟩ | ⟨rfl, rfl⟩ <;> decide +kernel

theorem toInt_ofBool_append : ∀ (sign : Bool) (data : BitVec 8),
    (BitVec.ofBool sign ++ data).toInt = (data.toNat : Int) - if sign then 256 else 0 := by
  decide +kernel

theorem flag_eq : ∀ flags : BitVec 8, decide (flags &&& 0x01 ≠ 0) = flags.getLsbD 0 ∧
    decide (flags &&& 0x02 ≠ 0) = flags.getLsbD 1 ∧
    decide (flags &&& 0x04 ≠ 0) = flags.getLsbD 2 ∧
    (flags &&& 0x08 ≠ 0 ↔ flags.getLsbD 3 = true) := by
  decide +kernel

theorem delta_eq {shift bit : Nat} (hbit : shift = 4 ∧ bit = 4 ∨ shift = 3 ∧ bit = 5)
    (data flags : BitVec 8) :
    delta data flags shift = (BitVec.ofBool (flags.getLsbD bit) ++ data).toInt := by
  rw [delta, flags_shift hbit, toInt_ofBool_append]
  split <;> rfl

theorem nineBits (v : BitVec 9) : -256 ≤ v.toInt ∧ v.toInt < 256 :=
  ⟨v.le_toInt, v.toInt_lt⟩

/-- Near the screen nothing overflows. -/
theorem bounded_eq {size : Nat} {z : Int} (hpos : 1 ≤ size) (hsize : size ≤ 2 ^ 30)
    (hlo : -256 ≤ z) (hhi : z ≤ 2 ^ 30 + 256) :
    bounded size (int32 z) = clamp z 0 (size - 1) := by
  have hz : int32 z = z := int32_of_mem (by omega) (by omega)
  have hlast : int32 (size - 1) = size - 1 := int32_of_mem (by omega) (by omega)
  rw [hz, bounded, clamp, hlast]
  by_cases hneg : z < 0
  · have hu : u32 0 = 0 := rfl
    rw [if_pos hneg, hu, if_neg (Nat.not_le_of_lt hpos)]
    omega
  · have hu := u32_of_lt (z := z) (by omega) (by omega)
    rw [if_neg hneg]
    split <;> omega

theorem clamp_bounds {size : Nat} (z : Int) (hpos : 1 ≤ size) :
    0 ≤ clamp z 0 (size - 1) ∧ clamp z 0 (size - 1) < size := by
  rw [clamp]
  omega

/-! ## One byte -/

/-- The bytes of the packet that is being read. -/
inductive Unfinished (s : MouseT) : List (BitVec 8) → Prop
  | none : s.mouseCycle = 0 → Unfinished s []
  | first : s.mouseCycle = 1 → s.mousePacket.1.getLsbD 3 = true → Unfinished s [s.mousePacket.1]
  | second : s.mouseCycle = 2 → s.mousePacket.1.getLsbD 3 = true →
      Unfinished s [s.mousePacket.1, s.mousePacket.2.1]

/-- The pointer is at `q`, on the screen. -/
structure PointsAt (width height : Nat) (s : MouseT) (q : Pointer) : Prop where
  x_eq : s.mouseX = q.x
  y_eq : s.mouseY = q.y
  x_mem : 0 ≤ q.x ∧ q.x < width
  y_mem : 0 ≤ q.y ∧ q.y < height
  left : s.mouse.left = q.left
  right : s.mouse.right = q.right
  middle : s.mouse.middle = q.middle

variable {width height : Nat}

theorem packets_skip {b : BitVec 8} (h : ¬ b.getLsbD 3 = true) (bytes : List (BitVec 8)) :
    packets (b :: bytes) = packets bytes := by
  rw [packets.eq_def]
  dsimp only
  rw [if_neg h]

theorem packets_unfinished {s : MouseT} {pending : List (BitVec 8)} (h : Unfinished s pending) :
    packets pending = [] := by
  cases h with
  | none => simp [packets]
  | first _ hstart => simp [packets, hstart]
  | second _ hstart => simp [packets, hstart]

/-- The third byte. -/
theorem callback_packet (hw : 1 ≤ width ∧ width ≤ 2 ^ 30) (hh : 1 ≤ height ∧ height ≤ 2 ^ 30)
    {s : MouseT} {q : Pointer} (hat : PointsAt width height s q) (hcycle : s.mouseCycle = 2)
    (b : BitVec 8) :
    let p : Packet := ⟨s.mousePacket.1, s.mousePacket.2.1, b⟩
    PointsAt width height (mouseCallback width height s b) (moved width height q p) ∧
      (mouseCallback width height s b).mouse = shown width height q p ∧
      (mouseCallback width height s b).mouseCycle = 0 := by
  intro p
  obtain ⟨hx, hy, hxmem, hymem, hleft, hright, hmiddle⟩ := hat
  obtain ⟨hl, hr, hm, -⟩ := flag_eq s.mousePacket.1
  have hdx : delta s.mousePacket.2.1 s.mousePacket.1 4 = p.dx := delta_eq (Or.inl ⟨rfl, rfl⟩) _ _
  have hdy : delta b s.mousePacket.1 3 = p.dy := delta_eq (Or.inr ⟨rfl, rfl⟩) _ _
  have hdx9 : -256 ≤ p.dx ∧ p.dx < 256 := nineBits _
  have hdy9 : -256 ≤ p.dy ∧ p.dy < 256 := nineBits _
  have hxnew : bounded width (int32 (q.x + p.dx)) = clamp (q.x + p.dx) 0 (width - 1) :=
    bounded_eq hw.1 hw.2 (by omega) (by omega)
  have hynew : bounded height (int32 (q.y - p.dy)) = clamp (q.y - p.dy) 0 (height - 1) :=
    bounded_eq hh.1 hh.2 (by omega) (by omega)
  have hcall : mouseCallback width height s b =
      { mousePacket := (s.mousePacket.1, s.mousePacket.2.1, b)
        mouseCycle := 0
        mouseX := (moved width height q p).x
        mouseY := (moved width height q p).y
        mouse := shown width height q p } := by
    rw [mouseCallback, hcycle]
    dsimp only
    rw [hdx, hdy, hx, hy, hxnew, hynew, hl, hr, hm, hleft, hright, hmiddle]
    rfl
  rw [hcall]
  exact ⟨⟨rfl, rfl, clamp_bounds _ hw.1, clamp_bounds _ hh.1, rfl, rfl, rfl⟩, rfl, rfl⟩

/-! ## All bytes -/

theorem feed_reports (hw : 1 ≤ width ∧ width ≤ 2 ^ 30) (hh : 1 ≤ height ∧ height ≤ 2 ^ 30)
    (bytes : List (BitVec 8)) : ∀ {s : MouseT} {q : Pointer} {pending : List (BitVec 8)},
      PointsAt width height s q → Unfinished s pending →
      (feed width height s bytes).mouseCycle ∈ [0, 1, 2] ∧
        (feed width height s bytes).mouse =
          (reports width height q (packets (pending ++ bytes))).getLastD s.mouse := by
  induction bytes with
  | nil =>
    intro s q pending _ hpending
    rw [List.append_nil, packets_unfinished hpending]
    refine ⟨?_, rfl⟩
    cases hpending with
    | none hcycle => simp [feed, hcycle]
    | first hcycle => simp [feed, hcycle]
    | second hcycle => simp [feed, hcycle]
  | cons b bytes ih =>
    intro s q pending hat hpending
    rw [feed, List.foldl_cons, ← feed]
    cases hpending with
    | none hcycle =>
      have hcall : mouseCallback width height s b = { s with
          mousePacket := (b, s.mousePacket.2)
          mouseCycle := if b.getLsbD 3 = true then 1 else 0 } := by
        rw [mouseCallback, hcycle]
        simp only [(flag_eq b).2.2.2, Nat.zero_add]
      rw [hcall, List.nil_append]
      by_cases hstart : b.getLsbD 3 = true
      · rw [if_pos hstart]
        exact ih (s := { s with mousePacket := (b, s.mousePacket.2), mouseCycle := 1 })
          ⟨hat.x_eq, hat.y_eq, hat.x_mem, hat.y_mem, hat.left, hat.right, hat.middle⟩
          (.first rfl hstart)
      · rw [if_neg hstart, packets_skip hstart]
        exact ih (s := { s with mousePacket := (b, s.mousePacket.2), mouseCycle := 0 })
          ⟨hat.x_eq, hat.y_eq, hat.x_mem, hat.y_mem, hat.left, hat.right, hat.middle⟩
          (.none rfl)
    | first hcycle hstart =>
      have hcall : mouseCallback width height s b = { s with
          mousePacket := (s.mousePacket.1, b, s.mousePacket.2.2)
          mouseCycle := 2 } := by
        rw [mouseCallback, hcycle]
        rfl
      rw [hcall]
      exact ih (s := { s with
          mousePacket := (s.mousePacket.1, b, s.mousePacket.2.2), mouseCycle := 2 })
        ⟨hat.x_eq, hat.y_eq, hat.x_mem, hat.y_mem, hat.left, hat.right, hat.middle⟩
        (.second rfl hstart)
    | second hcycle hstart =>
      obtain ⟨hat', hmouse, hcycle'⟩ := callback_packet hw hh hat hcycle b
      have hrest := ih hat' (.none hcycle')
      rw [hmouse, List.nil_append] at hrest
      have hpackets : packets ([s.mousePacket.1, s.mousePacket.2.1] ++ b :: bytes) =
          ⟨s.mousePacket.1, s.mousePacket.2.1, b⟩ :: packets bytes := by
        simp [packets, hstart]
      rw [hpackets, reports, List.getLastD_cons]
      exact hrest

/-- **The mouse.**  After any bytes the cycle is 0, 1 or 2, and `mouse` is what
the last packet shows of the pointer that the packets before it moved. -/
theorem mouse_packets (width height : Nat) (x y : Int)
    (hw : 1 ≤ width ∧ width ≤ 2 ^ 30) (hh : 1 ≤ height ∧ height ≤ 2 ^ 30)
    (hx : 0 ≤ x ∧ x < width) (hy : 0 ≤ y ∧ y < height) (bytes : List (BitVec 8)) :
    (feed width height (mouseSetPos mouseZero x y) bytes).mouseCycle ∈ [0, 1, 2] ∧
      (feed width height (mouseSetPos mouseZero x y) bytes).mouse =
        (reports width height ⟨x, y, false, false, false⟩ (packets bytes)).getLastD noMouse :=
  feed_reports hw hh bytes ⟨rfl, rfl, hx, hy, rfl, rfl, rfl⟩ (.none rfl)

/-- A byte out of step, then a click with a move to the left. -/
theorem click_packets :
    (feed 640 480 (mouseSetPos mouseZero 320 240) [0x01, 0x19, 0xff, 0x02]).mouseCycle ∈ [0, 1, 2] ∧
      (feed 640 480 (mouseSetPos mouseZero 320 240) [0x01, 0x19, 0xff, 0x02]).mouse =
        ⟨319, 238, true, false, false, true, false, false⟩ := by
  obtain ⟨hcycle, hmouse⟩ := mouse_packets 640 480 320 240 (by decide) (by decide) (by decide)
    (by decide) [0x01, 0x19, 0xff, 0x02]
  exact ⟨hcycle, hmouse.trans (by decide)⟩

end FrogKernel.Mouse
