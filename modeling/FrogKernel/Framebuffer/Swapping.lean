import FrogKernel.Devices.Fb
import FrogKernel.Devices.Pit
import FrogKernel.Framebuffer.Screen
import FrogKernel.Memory.EarlyPages

/-!
# From the back buffer to the monitor (`framebuffer/framebuffer.c`, `devices/pit/pit.c`)

The kernel draws into a back buffer.  Every sixteenth timer interrupt copies it through the window
at `FRAMEBUFFER_OFFSET` to the framebuffer, which the monitor shows.  Whoever draws can be
interrupted between any two stores.

Main results: `monitor_refines` and `monitor_held`.
-/

namespace FrogKernel.Swapping

open FrogKernel.Bytes FrogKernel.PageTables FrogKernel.Paging FrogKernel.Pmm FrogKernel.KernelPages
open FrogKernel.BootPaging (BootData ramdiskData)
open FrogKernel.Console (Pixel ConsoleT consoleToggleCursor)
open FrogKernel.EarlyPages (BootEvent Before Reached Apart reached_start ramdiskBoot_offers)
open FrogKernel.Fb (FbTag FramebufferT FRAMEBUFFER_OFFSET)
open FrogKernel.KernelAreas (KernelMem newKernelPage kallocPages)
open FrogKernel.Kheap (add32 sub32 LARGE_ALLOC_BASE)
open FrogKernel.Pages (pageCount Touches)
open FrogKernel.Pit (PitState PitCall pitCallback)
open FrogKernel.PmmInit (BootInfo FitsWord Marked markCount_eq ramdiskBoot)
open FrogKernel.Raster (offset putPixel)
open FrogKernel.Runs (Run)

def PAGE_PWT : Nat := 0x08
def PAGE_PCD : Nat := 0x10

/-! ## `framebuffer.c` -/

/-- The loop of `fb_init`, from page `i` on. -/
def mapWindow (fbPhys : Nat) : Nat → Nat → Machine → Option Machine
  | 0, _, s => some s
  | n + 1, i, s =>
    let phys := add32 fbPhys (i * 0x1000)
    let virt := add32 FRAMEBUFFER_OFFSET (i * 0x1000)
    (mapPage s phys virt (PAGE_PRESENT ||| PAGE_RW ||| PAGE_PCD ||| PAGE_PWT)).bind
      (mapWindow fbPhys n (i + 1))

/-- `fb_init`; nothing is a page fault or a `panic`. -/
def fbInit (s : KernelMem) (framebufferAddr : Nat) (tag : FbTag) :
    Option (FramebufferT × KernelMem) :=
  let fbPhys := framebufferAddr % 2 ^ 32
  let fbSize := tag.height * tag.pitch % 2 ^ 32
  let pages := add32 fbSize 0xfff / 0x1000
  (mapWindow fbPhys pages 0 s.tables).bind fun tables =>
    let numPages := sub32 (add32 fbSize PAGE_SIZE) 1 / PAGE_SIZE
    (kallocPages { s with heap := { s.heap with pages := tables } } numPages).bind fun (addr, s) =>
      if addr = 0 then none else some (Fb.fbInit tag addr, s)

/-- `fb_put_pixel` -/
def fbPutPixel (fb : FramebufferT) (s : Machine) (px : Pixel) : Option Machine :=
  store32 s (add32 (add32 fb.addr (px.y * fb.pitch)) (px.x * (fb.bpp / 8))) px.color.toNat

/-- `fb_swap` after `fb_init`. -/
def fbSwap (fb : FramebufferT) (s : Machine) : Option Machine :=
  repMovsl s fb.addr fb.physAddr (fb.size / 4)

def drawPixels (fb : FramebufferT) (s : Machine) (pixels : List Pixel) : Option Machine :=
  pixels.foldlM (fbPutPixel fb) s

/-! ## The timer interrupt -/

structure System where
  mem : Machine
  pit : PitState

/-- A call from `pit_callback`. -/
def pitCall (fb : FramebufferT) (console : ConsoleT) (s : Machine) : PitCall → Option Machine
  | .consoleToggleCursor => drawPixels fb s (consoleToggleCursor console).1
  | .fbSwap => fbSwap fb s

/-- `pit_callback` with the calls carried out. -/
def timer (fb : FramebufferT) (console : ConsoleT) (s : System) : Option System :=
  let (calls, pit) := pitCallback s.pit
  (calls.foldlM (pitCall fb console) s.mem).map fun mem => ⟨mem, pit⟩

/-! ## Steps -/

/-- A pixel of the screen. -/
def OnScreen (fb : FramebufferT) (px : Pixel) : Prop := px.x < fb.width ∧ px.y < fb.height

/-- Neither in the window nor in the back buffer. -/
def Elsewhere (fb : FramebufferT) (virt : Nat) : Prop :=
  ¬ (fb.physAddr ≤ virt ∧ virt < fb.physAddr + pageCount PAGE_SIZE fb.size * 4096) ∧
    ¬ (fb.addr ≤ virt ∧ virt < fb.addr + pageCount PAGE_SIZE fb.size * 4096)

inductive Event where
  | pixel (px : Pixel)
  | byte (x : Nat) (b : BitVec 8)
  | tick (console : ConsoleT)
  | other

/-- What the kernel does after `fb_init`, one store at a time: a pixel, a byte of the back buffer as
in `memmove` and `fb_write`, a timer interrupt, a page or a byte somewhere else. -/
inductive ScreenStep (fb : FramebufferT) : System → Event → System → Prop
  | pixel {s : System} {px : Pixel} {mem : Machine} : OnScreen fb px →
      fbPutPixel fb s.mem px = some mem → ScreenStep fb s (.pixel px) { s with mem }
  | byte {s : System} {x : Nat} {b : BitVec 8} {mem : Machine} : x < fb.size →
      store8 s.mem (fb.addr + x) b = some mem → ScreenStep fb s (.byte x b) { s with mem }
  | tick {s s' : System} {console : ConsoleT} (currThread schedulePending : Bool) :
      (∀ px ∈ (consoleToggleCursor console).1, OnScreen fb px) →
      timer fb console { s with pit := { s.pit with currThread, schedulePending } } = some s' →
      ScreenStep fb s (.tick console) s'
  | page {s : System} {virt : Nat} {mem : Machine} : KernelVirt virt → virt % 4096 = 0 →
      Elsewhere fb virt → newKernelPage s.mem virt = some mem → ScreenStep fb s .other { s with mem }
  | store {s : System} {virt : Nat} {b : BitVec 8} {mem : Machine} : KernelVirt virt →
      Elsewhere fb virt → store8 s.mem virt b = some mem → ScreenStep fb s .other { s with mem }

/-! ## The back buffer and the picture -/

/-- What is drawn and what is shown. -/
structure Shown where
  ticks : Nat
  back : Mem
  front : Mem

def Shown.draw (fb : FramebufferT) (back : Mem) (pixels : List Pixel) : Mem :=
  pixels.foldl (fun back px => putPixel fb.pitch back px.x px.y px.color) back

/-- Drawing changes the back buffer, and every sixteenth tick shows it. -/
def Shown.apply (fb : FramebufferT) (t : Shown) : Event → Shown
  | .pixel px => { t with back := putPixel fb.pitch t.back px.x px.y px.color }
  | .byte x b => { t with back := Function.update t.back x b }
  | .tick console =>
    let ticks := (t.ticks + 1) % 2 ^ 32
    let back := if ticks % 500 = 0 then draw fb t.back (consoleToggleCursor console).1 else t.back
    { ticks, back
      front := if ticks % 16 = 0 then fun x => if x < 4 * (fb.size / 4) then back x else t.front x
        else t.front }
  | .other => t

/-! ## The two mappings -/

/-- The framebuffer is at `phys`, the back buffer in these frames. -/
structure Panel (fb : FramebufferT) (phys : Nat) (frame : Nat → Nat) : Prop where
  bpp : fb.bpp = 32
  pitch_words : fb.pitch % 4 = 0
  pitch_ge : 4 * fb.width ≤ fb.pitch
  size_eq : fb.size = fb.pitch * fb.height
  window_ge : 0xc0400000 ≤ fb.physAddr
  window_aligned : fb.physAddr % 4096 = 0
  window_le : fb.physAddr + pageCount PAGE_SIZE fb.size * 4096 ≤ fb.addr
  addr_aligned : fb.addr % 4096 = 0
  addr_le : fb.addr + pageCount PAGE_SIZE fb.size * 4096 ≤ 0xff000000
  phys_aligned : phys % 4096 = 0
  frame_aligned : ∀ i < pageCount PAGE_SIZE fb.size, frame i % 4096 = 0
  distinct : ∀ i < pageCount PAGE_SIZE fb.size, ∀ j < pageCount PAGE_SIZE fb.size,
    frame i = frame j → i = j
  apart : ∀ i < pageCount PAGE_SIZE fb.size, ∀ j < pageCount PAGE_SIZE fb.size,
    frame i ≠ phys + j * 4096

/-- The frames of both. -/
def Frames (fb : FramebufferT) (phys : Nat) (frame : Nat → Nat) (f : Nat) : Prop :=
  ∃ i < pageCount PAGE_SIZE fb.size, f = phys + i * 4096 ∨ f = frame i

/-- They are mapped, and no other page of the kernel leads to them. -/
structure Mapped (fb : FramebufferT) (phys : Nat) (frame : Nat → Nat) (s : Machine) : Prop where
  own : OwnPages s
  window : ∀ x < fb.size, translate s.phys s.cr3 (fb.physAddr + x) = some (phys + x)
  buffer : ∀ x < fb.size, translate s.phys s.cr3 (fb.addr + x) = some (place frame x)
  data : ∀ f, Frames fb phys frame f → DataFrame s f
  others : ∀ v, KernelVirt v → Elsewhere fb v → ∀ a, translate s.phys s.cr3 v = some a →
    DataFrame s (frameOf a) ∧ ¬ Frames fb phys frame (frameOf a)

section Panel

variable {fb : FramebufferT} {phys : Nat} {frame : Nat → Nat}

theorem page_lt {x : Nat} (hx : x < fb.size) : x / 4096 < pageCount PAGE_SIZE fb.size := by
  simp only [pageCount, PAGE_SIZE]
  omega

theorem Panel.frameOf_window (hp : Panel fb phys frame) (x : Nat) :
    frameOf (phys + x) = phys + x / 4096 * 4096 := by
  have haligned := hp.phys_aligned
  simp only [frameOf]
  omega

theorem Panel.frameOf_place (hp : Panel fb phys frame) {x : Nat} (hx : x < fb.size) :
    frameOf (place frame x) = frame (x / 4096) := by
  have haligned := hp.frame_aligned _ (page_lt hx)
  rw [frameOf, place]
  omega

theorem Panel.window_frame (hp : Panel fb phys frame) {x : Nat} (hx : x < fb.size) :
    Frames fb phys frame (frameOf (phys + x)) :=
  ⟨x / 4096, page_lt hx, Or.inl (hp.frameOf_window x)⟩

theorem Panel.place_frame (hp : Panel fb phys frame) {x : Nat} (hx : x < fb.size) :
    Frames fb phys frame (frameOf (place frame x)) :=
  ⟨x / 4096, page_lt hx, Or.inr (hp.frameOf_place hx)⟩

theorem Panel.place_injective (hp : Panel fb phys frame) {x y : Nat} (hx : x < fb.size)
    (hy : y < fb.size) (heq : place frame x = place frame y) : x = y := by
  have hframe : frame (x / 4096) = frame (y / 4096) := by
    rw [← hp.frameOf_place hx, ← hp.frameOf_place hy, heq]
  have hpage := hp.distinct _ (page_lt hx) _ (page_lt hy) hframe
  rw [place, place, hframe] at heq
  omega

theorem Panel.place_ne (hp : Panel fb phys frame) {x y : Nat} (hx : x < fb.size)
    (hy : y < fb.size) : place frame x ≠ phys + y := by
  intro heq
  apply hp.apart _ (page_lt hx) _ (page_lt hy)
  rw [← hp.frameOf_place hx, heq, hp.frameOf_window]

theorem Panel.place_words (hp : Panel fb phys frame) {n : Nat} (hn : 4 * n ≤ fb.size) :
    InWords n (place frame) := by
  intro i hi j hj
  have hpage : (4 * i + j) / 4096 = 4 * i / 4096 := by omega
  refine ⟨?_, ?_⟩
  · rw [place, place, hpage]
    omega
  · rw [hp.frameOf_place (by omega), hp.frameOf_place (by omega), hpage]

theorem Panel.window_words (hp : Panel fb phys frame) (n : Nat) : InWords n fun x => phys + x := by
  intro i hi j hj
  refine ⟨(Nat.add_assoc ..).symm, ?_⟩
  dsimp only
  rw [hp.frameOf_window, hp.frameOf_window]
  omega

theorem Panel.size_le (hp : Panel fb phys frame) : fb.addr + fb.size ≤ 0xff000000 := by
  have haddr := hp.addr_le
  simp only [pageCount, PAGE_SIZE] at haddr
  omega

/-! ## What leaves the mappings -/

variable {s s' : Machine}

theorem Mapped.stores (h : Mapped fb phys frame s) (hstores : Stores s s') :
    Mapped fb phys frame s' := by
  refine ⟨hstores.own h.own, fun x hx => ?_, fun x hx => ?_, fun f hf => hstores.data (h.data f hf),
    fun v hv helse a ha => ?_⟩
  · rw [hstores.translate]
    exact h.window x hx
  · rw [hstores.translate]
    exact h.buffer x hx
  · rw [hstores.translate] at ha
    obtain ⟨hdata, hne⟩ := h.others v hv helse a ha
    exact ⟨hstores.data hdata, hne⟩

/-- The page does not reach into an area of whole pages. -/
theorem outside_page {base n virt x : Nat} (hbase : base % 4096 = 0) (hvirt : virt % 4096 = 0)
    (hout : ¬ (base ≤ virt ∧ virt < base + n * 4096)) (hx : x < n * 4096) :
    ¬ (virt ≤ base + x ∧ base + x < virt + 1 * 4096) := by
  omega

theorem Mapped.page (hp : Panel fb phys frame) (h : Mapped fb phys frame s) {virt : Nat}
    (hv : KernelVirt virt) (haligned : virt % 4096 = 0) (helse : Elsewhere fb virt)
    (hpage : newKernelPage s virt = some s') : Mapped fb phys frame s' ∧
      ∀ x, Frames fb phys frame (frameOf x) → s'.phys x = s.phys x := by
  obtain ⟨f, hedits, hframes⟩ := h.own.newPage hv haligned hpage
  have hf : frameOf f = f :=
    Nat.div_mul_cancel (Nat.dvd_of_mod_eq_zero (hframes.aligned 0 Nat.one_pos))
  have hkept : ∀ f, Frames fb phys frame f → f % 4096 = 0 → DataFrame s' f ∧
      ∀ a, frameOf a = f → s'.phys a = s.phys a := fun f hf hal => hedits.kept f hal (h.data f hf)
  have hwindow := hp.window_ge
  have hle := hp.window_le
  have haddr := hp.addr_le
  have hsize : ∀ {x}, x < fb.size → x < pageCount PAGE_SIZE fb.size * 4096 := fun hx => by
    have := page_lt hx
    omega
  have hothers : ∀ v, KernelVirt v → ¬ (virt ≤ v ∧ v < virt + 1 * 4096) →
      translate s'.phys s'.cr3 v = translate s.phys s.cr3 v :=
    fun v hv hout => hedits.others hv.lt hv.dirIndex.2 hout
  refine ⟨⟨hedits.own, fun x hx => ?_, fun x hx => ?_, fun f hf => ?_, fun v hv' helse' a ha => ?_⟩,
    fun x hx => (hkept _ hx (frameOf_aligned x)).2 x rfl⟩
  · have := hsize hx
    rw [hothers _ ⟨by omega, by omega⟩ (outside_page hp.window_aligned haligned helse.1 this)]
    exact h.window x hx
  · have := hsize hx
    rw [hothers _ ⟨by omega, by omega⟩ (outside_page hp.addr_aligned haligned helse.2 this)]
    exact h.buffer x hx
  · refine (hkept f hf ?_).1
    obtain ⟨i, hi, rfl | rfl⟩ := hf
    · have := hp.phys_aligned
      omega
    · exact hp.frame_aligned i hi
  · by_cases hin : virt ≤ v ∧ v < virt + 1 * 4096
    · have he := pageEntry_entry (PAGE_PRESENT ||| PAGE_RW) (hframes.lt 0 Nat.one_pos)
      have ht := hedits.target haligned (x := v - virt) (by omega) (by have := hv'.lt; omega)
        (by rw [show virt + (v - virt) = v by omega]; exact hv'.dirIndex.2) he
      rw [show virt + (v - virt) = v by omega, hf] at ht
      rw [ht] at ha
      obtain rfl := Option.some.inj ha
      have hframe : frameOf (f + (v - virt) % 4096) = f := by
        have := hframes.aligned 0 Nat.one_pos
        simp only [frameOf]
        omega
      rw [hframe]
      exact ⟨hframes.data 0 Nat.one_pos, fun hmem => hframes.ne_data Nat.one_pos (h.data f hmem) rfl⟩
    · rw [hothers v hv' hin] at ha
      obtain ⟨hdata, hne⟩ := h.others v hv' helse' a ha
      exact ⟨(hedits.kept _ (frameOf_aligned a) hdata).1, hne⟩

/-! ## The pictures -/

/-- What is drawn and what is shown are `back` and `front`. -/
structure Pictures (fb : FramebufferT) (phys : Nat) (frame : Nat → Nat) (s : Machine)
    (back front : Mem) : Prop where
  mapped : Mapped fb phys frame s
  back : ∀ x < fb.size, s.phys (place frame x) = back x
  front : ∀ x < fb.size, s.phys (phys + x) = front x

variable {back front : Mem}

/-- Bytes of other frames change. -/
theorem Pictures.others (hp : Panel fb phys frame) (h : Pictures fb phys frame s back front)
    (hmapped : Mapped fb phys frame s')
    (hkept : ∀ x, Frames fb phys frame (frameOf x) → s'.phys x = s.phys x) :
    Pictures fb phys frame s' back front := by
  refine ⟨hmapped, fun x hx => ?_, fun x hx => ?_⟩
  · rw [hkept _ (hp.place_frame hx), h.back x hx]
  · rw [hkept _ (hp.window_frame hx), h.front x hx]

theorem Pictures.byte (hp : Panel fb phys frame) (h : Pictures fb phys frame s back front) {x : Nat}
    (hx : x < fb.size) (b : BitVec 8) :
    store8 s (fb.addr + x) b = some { s with phys := Function.update s.phys (place frame x) b } ∧
      Pictures fb phys frame { s with phys := Function.update s.phys (place frame x) b }
        (Function.update back x b) front := by
  refine ⟨by rw [store8, h.mapped.buffer x hx]; rfl, ?_, fun y hy => ?_, fun y hy => ?_⟩
  · exact h.mapped.stores (stores_byte h.mapped.own (h.mapped.data _ (hp.place_frame hx)) b)
  · dsimp only
    by_cases heq : y = x
    · rw [heq, Function.update_self, Function.update_self]
    · rw [Function.update_of_ne heq, Function.update_of_ne, h.back y hy]
      exact fun hsame => heq (hp.place_injective hy hx hsame)
  · dsimp only
    rw [Function.update_of_ne (hp.place_ne hx hy).symm, h.front y hy]

theorem Panel.offset_spec (hp : Panel fb phys frame) {px : Pixel} (hpx : OnScreen fb px) :
    offset fb.pitch px.x px.y % 4 = 0 ∧ offset fb.pitch px.x px.y + 4 ≤ fb.size := by
  obtain ⟨hx, hy⟩ := hpx
  have hge := hp.pitch_ge
  have hrow : (px.y + 1) * fb.pitch ≤ fb.height * fb.pitch := Nat.mul_le_mul_right _ hy
  have hword : px.y * fb.pitch % 4 = 0 := by rw [Nat.mul_mod, hp.pitch_words, Nat.mul_zero]
  rw [Nat.add_one_mul] at hrow
  rw [hp.size_eq, Nat.mul_comm fb.pitch, offset]
  omega

theorem Pictures.pixel (hp : Panel fb phys frame) (h : Pictures fb phys frame s back front)
    {px : Pixel} (hpx : OnScreen fb px) : ∃ s', fbPutPixel fb s px = some s' ∧
      Pictures fb phys frame s' (putPixel fb.pitch back px.x px.y px.color) front := by
  obtain ⟨hword, hfits⟩ := hp.offset_spec hpx
  have hsize := hp.size_le
  have hvirt : add32 (add32 fb.addr (px.y * fb.pitch)) (px.x * (fb.bpp / 8)) =
      fb.addr + offset fb.pitch px.x px.y := by
    rw [hp.bpp]
    simp only [add32, offset] at *
    omega
  have hcall : fbPutPixel fb s px = some { s with
      phys := write32 s.phys (place frame (offset fb.pitch px.x px.y)) px.color.toNat } := by
    rw [fbPutPixel, hvirt, store32, h.mapped.buffer _ (by omega)]
    rfl
  have hwords := hp.place_words (n := fb.size / 4) (by omega)
  have hplace : ∀ j < 4, place frame (offset fb.pitch px.x px.y + j) =
      place frame (offset fb.pitch px.x px.y) + j ∧
      frameOf (place frame (offset fb.pitch px.x px.y + j)) =
        frameOf (place frame (offset fb.pitch px.x px.y)) := by
    intro j hj
    have := hwords (offset fb.pitch px.x px.y / 4) (by omega) j hj
    rwa [show 4 * (offset fb.pitch px.x px.y / 4) = offset fb.pitch px.x px.y by omega] at this
  refine ⟨_, hcall, ?_⟩
  rw [putPixel]
  generalize offset fb.pitch px.x px.y = x at hfits hplace
  refine ⟨h.mapped.stores (stores_word h.mapped.own (h.mapped.data _ (hp.place_frame (by omega)))
    (fun j hj => ?_) _), fun y hy => ?_, fun y hy => ?_⟩
  · rw [← (hplace j hj).1]
    exact (hplace j hj).2
  · dsimp only
    by_cases hin : x ≤ y ∧ y < x + 4
    · obtain ⟨j, rfl⟩ : ∃ j, y = x + j := ⟨y - x, by omega⟩
      rw [(hplace j (by omega)).1, write32, write32, writeN_same _ back px.color.isLt, if_pos (by omega)]
      exact congrArg (writeN back x 4 px.color.toNat) (by omega)
    · rw [write32, write32, writeN_outside back (by omega), writeN_outside, h.back y hy]
      by_contra hnear
      obtain ⟨j, hj, heq⟩ : ∃ j < 4, place frame y = place frame x + j :=
        ⟨place frame y - place frame x, by omega, by omega⟩
      rw [← (hplace j hj).1] at heq
      have := hp.place_injective hy (by omega) heq
      omega
  · dsimp only
    rw [write32, writeN_outside, h.front y hy]
    by_contra hnear
    obtain ⟨j, hj, heq⟩ : ∃ j < 4, phys + y = place frame x + j :=
      ⟨phys + y - place frame x, by omega, by omega⟩
    rw [← (hplace j hj).1] at heq
    exact hp.place_ne (by omega) hy heq.symm

theorem Pictures.pixels (hp : Panel fb phys frame) {pixels : List Pixel}
    (hpixels : ∀ px ∈ pixels, OnScreen fb px) (h : Pictures fb phys frame s back front) :
    ∃ s', drawPixels fb s pixels = some s' ∧
      Pictures fb phys frame s' (Shown.draw fb back pixels) front := by
  induction pixels generalizing s back with
  | nil => exact ⟨s, rfl, h⟩
  | cons px pixels ih =>
    obtain ⟨s₁, hpixel, h₁⟩ := h.pixel hp (hpixels px List.mem_cons_self)
    obtain ⟨s', hrest, h'⟩ := ih (fun px hmem => hpixels px (List.mem_cons_of_mem _ hmem)) h₁
    refine ⟨s', ?_, h'⟩
    rw [drawPixels, List.foldlM_cons, hpixel]
    exact hrest

/-- **`fb_swap`.** -/
theorem Pictures.swap (hp : Panel fb phys frame) (h : Pictures fb phys frame s back front) :
    ∃ s', fbSwap fb s = some s' ∧ Pictures fb phys frame s' back
      fun x => if x < 4 * (fb.size / 4) then back x else front x := by
  have hle : 4 * (fb.size / 4) ≤ fb.size := by omega
  have hsize := hp.size_le
  have hwindow := hp.window_le
  have hcount : fb.size ≤ pageCount PAGE_SIZE fb.size * 4096 := by
    simp only [pageCount, PAGE_SIZE]
    omega
  have hsrc : fb.addr + 4 * (fb.size / 4) ≤ 2 ^ 32 := by omega
  obtain ⟨s', hcall, hcopied⟩ := movsl_copies (d := fb.physAddr) (n := fb.size / 4)
    h.mapped.own (by omega) hsrc (fun x hx => h.mapped.window x (by omega))
    (hp.window_words _) (fun x hx => h.mapped.data _ (hp.window_frame (by omega)))
    (fun x _ y _ heq => Nat.add_left_cancel heq) (fun x hx => h.mapped.buffer x (by omega))
    (hp.place_words hle) fun x hx y hy => hp.place_ne (by omega) (by omega)
  refine ⟨s', hcall, h.mapped.stores hcopied.stores, fun x hx => ?_, fun x hx => ?_⟩
  · rw [hcopied.others _ fun y hy => hp.place_ne hx (by omega), h.back x hx]
  · by_cases hin : x < 4 * (fb.size / 4)
    · rw [if_pos hin, hcopied.bytes x hin, h.back x hx]
    · have hne : ∀ y < 4 * (fb.size / 4), phys + x ≠ phys + y := fun y hy heq => by omega
      rw [if_neg hin, hcopied.others _ hne, h.front x hx]

/-! ## Runs -/

/-- The machine shows what `t` says. -/
structure Agrees (fb : FramebufferT) (phys : Nat) (frame : Nat → Nat) (s : System) (t : Shown) :
    Prop where
  ticks : s.pit.ticks = t.ticks
  pictures : Pictures fb phys frame s.mem t.back t.front

/-- **A timer interrupt.** -/
theorem Agrees.tick (hp : Panel fb phys frame) {s : System} {t : Shown}
    (h : Agrees fb phys frame s t) {console : ConsoleT}
    (hconsole : ∀ px ∈ (consoleToggleCursor console).1, OnScreen fb px) :
    ∃ s', timer fb console s = some s' ∧ Agrees fb phys frame s' (t.apply fb (.tick console)) := by
  rw [timer, pitCallback]
  dsimp only
  rw [h.ticks, List.foldlM_append]
  obtain ⟨s₁, hdraw, h₁⟩ : ∃ s₁, ((if (t.ticks + 1) % 2 ^ 32 % 500 = 0 then
      [PitCall.consoleToggleCursor] else []).foldlM (pitCall fb console) s.mem) = some s₁ ∧
      Pictures fb phys frame s₁ (if (t.ticks + 1) % 2 ^ 32 % 500 = 0 then
        Shown.draw fb t.back (consoleToggleCursor console).1 else t.back) t.front := by
    by_cases hblink : (t.ticks + 1) % 2 ^ 32 % 500 = 0
    · obtain ⟨s₁, hcall, h₁⟩ := h.pictures.pixels hp hconsole
      refine ⟨s₁, ?_, ?_⟩
      · rw [if_pos hblink, List.foldlM_cons, pitCall, hcall]
        rfl
      · rw [if_pos hblink]
        exact h₁
    · refine ⟨s.mem, ?_, ?_⟩
      · rw [if_neg hblink]
        rfl
      · rw [if_neg hblink]
        exact h.pictures
  rw [hdraw]
  by_cases hswap : (t.ticks + 1) % 2 ^ 32 % 16 = 0
  · obtain ⟨s', hcall, h'⟩ := h₁.swap hp
    rw [if_pos hswap]
    refine ⟨_, congrArg (Option.map _) (show _ = some s' from ?_), rfl, ?_⟩
    · rw [Option.bind_eq_bind, Option.bind_some, List.foldlM_cons, pitCall, hcall]
      rfl
    · rw [Shown.apply]
      dsimp only
      rw [if_pos hswap]
      exact h'
  · rw [if_neg hswap]
    refine ⟨_, rfl, rfl, ?_⟩
    rw [Shown.apply]
    dsimp only
    rw [if_neg hswap]
    exact h₁

theorem agrees_step (hp : Panel fb phys frame) {s s' : System} {t : Shown} {e : Event}
    (h : Agrees fb phys frame s t) (hstep : ScreenStep fb s e s') :
    Agrees fb phys frame s' (t.apply fb e) := by
  cases hstep with
  | pixel hpx hcall =>
    obtain ⟨mem, hcall', hpictures⟩ := h.pictures.pixel hp hpx
    rw [hcall] at hcall'
    obtain rfl := Option.some.inj hcall'
    exact ⟨h.ticks, hpictures⟩
  | byte hx hcall =>
    obtain ⟨hcall', hpictures⟩ := h.pictures.byte hp hx _
    rw [hcall] at hcall'
    obtain rfl := Option.some.inj hcall'
    exact ⟨h.ticks, hpictures⟩
  | tick currThread schedulePending hconsole hcall =>
    have hpit : Agrees fb phys frame { s with pit := { s.pit with currThread, schedulePending } } t :=
      ⟨h.ticks, h.pictures⟩
    obtain ⟨s'', hcall', hagrees⟩ := hpit.tick hp hconsole
    rw [hcall] at hcall'
    obtain rfl := Option.some.inj hcall'
    exact hagrees
  | page hv haligned helse hpage =>
    obtain ⟨hmapped, hkept⟩ := h.pictures.mapped.page hp hv haligned helse hpage
    exact ⟨h.ticks, h.pictures.others hp hmapped hkept⟩
  | @store virt b mem hv helse hstore =>
    obtain ⟨a, ha, rfl⟩ := Option.map_eq_some_iff.mp hstore
    obtain ⟨hdata, hne⟩ := h.pictures.mapped.others virt hv helse a ha
    have hmapped := h.pictures.mapped.stores (stores_byte h.pictures.mapped.own hdata b)
    refine ⟨h.ticks, h.pictures.others hp hmapped fun x hx => Function.update_of_ne ?_ _ _⟩
    rintro rfl
    exact hne hx

/-- **Every run.** -/
theorem agrees_run (hp : Panel fb phys frame) {s s' : System} {t : Shown} {es : List Event}
    (hrun : Run (ScreenStep fb) s es s') (h : Agrees fb phys frame s t) :
    Agrees fb phys frame s' (es.foldl (Shown.apply fb) t) := by
  induction hrun generalizing t with
  | refl => exact h
  | step hstep _ ih => exact ih (agrees_step hp h hstep)

end Panel

/-! ## `fb_init` -/

section Init

variable {s s' : Machine} {fbPhys : Nat}

theorem mapWindow_edits {k n i : Nat} (h : OwnPages s) (hphys : fbPhys + (i + n) * 4096 ≤ 2 ^ 32)
    (hwindow : FRAMEBUFFER_OFFSET + (i + n) * 4096 ≤ 0xff000000) (hspare : Spare (k + n) s.pmm) :
    ∃ s', mapWindow fbPhys n i s = some s' ∧ Spare k s'.pmm ∧
      Edits s s' (FRAMEBUFFER_OFFSET + i * 4096) n fun j => pageEntry (fbPhys + (i + j) * 4096)
        (PAGE_PRESENT ||| PAGE_RW ||| PAGE_PCD ||| PAGE_PWT) := by
  induction n generalizing i s with
  | zero => exact ⟨s, rfl, hspare, h.edits _ _⟩
  | succ n ih =>
    have hoffset : FRAMEBUFFER_OFFSET = 0xc0e00000 := rfl
    have hvirt : add32 FRAMEBUFFER_OFFSET (i * 0x1000) = FRAMEBUFFER_OFFSET + i * 4096 :=
      Nat.mod_eq_of_lt (by omega)
    have hpage : add32 fbPhys (i * 0x1000) = fbPhys + i * 4096 := Nat.mod_eq_of_lt (by omega)
    have hv : KernelVirt (FRAMEBUFFER_OFFSET + i * 4096) := ⟨by omega, by omega⟩
    obtain ⟨s₁, hmap, hspare₁⟩ := h.map_some (fbPhys + i * 4096)
      (PAGE_PRESENT ||| PAGE_RW ||| PAGE_PCD ||| PAGE_PWT) hv (k := k + n) hspare
    have haligned : (FRAMEBUFFER_OFFSET + i * 4096) % 4096 = 0 := by omega
    have hlt : fbPhys + i * 4096 < 2 ^ 32 := by omega
    have hedits := h.map hv haligned hlt hmap
    have hnext : i + 1 + n = i + (n + 1) := by omega
    rw [← hnext] at hphys hwindow
    obtain ⟨s', hrest, hspare', hedits'⟩ := ih hedits.own hphys hwindow hspare₁
    refine ⟨s', ?_, hspare', ?_⟩
    · rw [mapWindow, hvirt, hpage, hmap, Option.bind_some]
      exact hrest
    · have hbase : FRAMEBUFFER_OFFSET + (i + 1) * 4096 = FRAMEBUFFER_OFFSET + i * 4096 + 1 * 4096 := by
        omega
      rw [hbase] at hedits'
      have hall := hedits.append hedits'
      rw [Nat.add_comm 1 n] at hall
      refine hall.congr fun j hj => ?_
      rcases Nat.eq_zero_or_pos j with rfl | hpos
      · rw [if_pos Nat.one_pos, Nat.add_zero]
      · rw [if_neg (by omega), show i + 1 + (j - 1) = i + j by omega]

end Init

section Boot

variable {b : BootInfo} {d : BootData b.kernel} {boot₀ : PmmInit.Booted} {s₀ : Machine}
  {boots : List BootEvent} {s s' : KernelMem} {tag : FbTag}

/-- The mode that the header of the kernel asks for, in words, and where the loader has put it. -/
structure Mode (b : BootInfo) (tag : FbTag) : Prop where
  pitch_eq : tag.pitch = b.fbTag.framebufferPitch
  height_eq : tag.height = b.fbTag.framebufferHeight
  bpp : tag.bpp = 32
  words : tag.pitch % 4 = 0
  aligned : b.fbTag.framebufferAddr % 4096 = 0
  fits : FitsWord b.fbTag
  below : b.fbTag.framebufferAddr +
    pageCount PAGE_SIZE (tag.pitch * tag.height) * 4096 ≤ 2 ^ 32
  behind : b.kernel.physEnd ≤ b.fbTag.framebufferAddr

def FbFrame (b : BootInfo) (tag : FbTag) (f : Nat) : Prop :=
  ∃ i < pageCount PAGE_SIZE (tag.pitch * tag.height), f = b.fbTag.framebufferAddr + i * 4096

/-- Addresses for the window, and addresses and frames for the back buffer and the tables. -/
structure FbRoom (s : KernelMem) (n : Nat) : Prop where
  window : FRAMEBUFFER_OFFSET + n * 4096 ≤ s.largeAllocBase
  low : LARGE_ALLOC_BASE ≤ s.largeAllocBase
  high : s.largeAllocBase + n * 4096 ≤ 0xff000000
  aligned : s.largeAllocBase % 4096 = 0
  frames : Spare (2 * n + n) s.tables.pmm

/-- The frames that `pmm_init` marks for the framebuffer are all of its frames. -/
theorem fbFrame_apart (h : Reached b d boot₀ s₀ boots s.tables) (hmode : Mode b tag)
    (hboots : ∀ phys, BootEvent.map phys ∈ boots → ¬ FbFrame b tag (frameOf phys)) :
    Apart (FbFrame b tag) s₀ s.tables := by
  have haligned := hmode.aligned
  obtain ⟨haddr, hsize⟩ := hmode.fits
  have hpage : ∀ i, addrToPage (b.fbTag.framebufferAddr + i * 4096) =
      addrToPage b.fbTag.framebufferAddr + i := fun i => by
    simp only [addrToPage, PAGE_SIZE]
    omega
  refine h.apart ?_ ?_ ?_ hboots
  · rintro f ⟨i, -, rfl⟩
    omega
  · rintro f ⟨i, hi, rfl⟩ hoff
    apply hoff.framebuffer
    rw [hmode.pitch_eq, hmode.height_eq] at hi
    rw [Nat.mod_eq_of_lt haddr, Nat.mod_eq_of_lt (by omega), Marked,
      markCount_eq (by rw [PAGE_SIZE]; omega), hpage]
    omega
  · rintro f ⟨i, -, rfl⟩ ⟨a, -, hhi, ha⟩
    have hbehind := hmode.behind
    simp only [addrToPage, PAGE_SIZE] at ha
    omega

/-- The window, then the back buffer. -/
structure Windowed (s s₁ s' : KernelMem) (phys n : Nat) (frame : Nat → Nat) : Prop where
  window : Edits s.tables s₁.tables FRAMEBUFFER_OFFSET n fun j => pageEntry (phys + j * 4096)
    (PAGE_PRESENT ||| PAGE_RW ||| PAGE_PCD ||| PAGE_PWT)
  buffer : Given s₁ s' n frame
  base : s₁.largeAllocBase = s.largeAllocBase

theorem fbInit_windowed (h : Before s.tables) (hmode : Mode b tag)
    (hroom : FbRoom s (pageCount PAGE_SIZE (tag.pitch * tag.height))) :
    ∃ s₁ s' frame, fbInit s b.fbTag.framebufferAddr tag =
        some (Fb.fbInit tag s.largeAllocBase, s') ∧
      Room s₁ (pageCount PAGE_SIZE (tag.pitch * tag.height)) ∧
      Windowed s s₁ s' b.fbTag.framebufferAddr (pageCount PAGE_SIZE (tag.pitch * tag.height)) frame := by
  have hhigh := hroom.high
  have hlow := hroom.low
  have hwindow := hroom.window
  have hbelow := hmode.below
  have haddr := hmode.fits.1
  have hsize : tag.height * tag.pitch % 2 ^ 32 = tag.pitch * tag.height := by
    rw [Nat.mul_comm]
    exact Nat.mod_eq_of_lt tag.rows_lt
  generalize hn : pageCount PAGE_SIZE (tag.pitch * tag.height) = n at *
  have hbase : LARGE_ALLOC_BASE = 0xe0000000 := rfl
  have hle : tag.pitch * tag.height ≤ n * 4096 := by
    rw [← hn]
    simp only [pageCount, PAGE_SIZE]
    omega
  have hpages : add32 (tag.pitch * tag.height) 0xfff / 0x1000 = n := by
    rw [← hn]
    simp only [add32, pageCount, PAGE_SIZE]
    omega
  have hnum : sub32 (add32 (tag.pitch * tag.height) PAGE_SIZE) 1 / PAGE_SIZE = n := by
    rw [← hn]
    simp only [add32, sub32, pageCount, PAGE_SIZE]
    omega
  have hphys : b.fbTag.framebufferAddr + (0 + n) * 4096 ≤ 2 ^ 32 := by rwa [Nat.zero_add]
  have hend : FRAMEBUFFER_OFFSET + (0 + n) * 4096 ≤ 0xff000000 := by
    rw [Nat.zero_add]
    omega
  have hne : s.largeAllocBase ≠ 0 := by omega
  obtain ⟨tables, hmap, hspare, hedits⟩ := mapWindow_edits h.own hphys hend hroom.frames
  have hroom₁ : Room { s with heap := { s.heap with pages := tables } } n :=
    ⟨hroom.low, hroom.high, hroom.aligned, hspare⟩
  obtain ⟨s', frame, hkalloc, hgiven⟩ :=
    kallocPages_given (s := { s with heap := { s.heap with pages := tables } }) hedits.own hroom₁
  refine ⟨_, s', frame, ?_, hroom₁, ?_, hgiven, rfl⟩
  · rw [fbInit, Nat.mod_eq_of_lt haddr, hsize]
    dsimp only
    rw [hpages, hmap, Option.bind_some, hnum, hkalloc, Option.bind_some]
    exact if_neg hne
  · simp only [Nat.zero_mul, Nat.add_zero, Nat.zero_add] at hedits
    exact hedits

theorem fbInit_size (tag : FbTag) (addr : Nat) : (Fb.fbInit tag addr).size = tag.pitch * tag.height := by
  rw [Fb.fbInit, Nat.mul_comm]
  exact Nat.mod_eq_of_lt tag.rows_lt

section Windowed

variable {s₁ : KernelMem} {frame : Nat → Nat}

theorem Windowed.data (hapart : Apart (FbFrame b tag) s₀ s.tables) (hmode : Mode b tag)
    (hw : Windowed s s₁ s' b.fbTag.framebufferAddr (pageCount PAGE_SIZE (tag.pitch * tag.height)) frame)
    {f : Nat} (hf : FbFrame b tag f) : DataFrame s₁.tables f ∧ DataFrame s'.tables f := by
  have hal : f % 4096 = 0 := by
    have := hmode.aligned
    obtain ⟨i, -, rfl⟩ := hf
    omega
  have h₁ := (hw.window.kept f hal (hapart.data f hf)).1
  exact ⟨h₁, (hw.buffer.edits.kept f hal h₁).1⟩

theorem Windowed.panel (hapart : Apart (FbFrame b tag) s₀ s.tables) (hmode : Mode b tag)
    (hroom : FbRoom s (pageCount PAGE_SIZE (tag.pitch * tag.height)))
    (hw : Windowed s s₁ s' b.fbTag.framebufferAddr (pageCount PAGE_SIZE (tag.pitch * tag.height)) frame) :
    Panel (Fb.fbInit tag s.largeAllocBase) b.fbTag.framebufferAddr frame := by
  have hsize := fbInit_size tag s.largeAllocBase
  have hge : 0xc0400000 ≤ FRAMEBUFFER_OFFSET := by decide
  have hpage : FRAMEBUFFER_OFFSET % 4096 = 0 := by decide
  refine ⟨hmode.bpp, hmode.words, tag.pitch_ge, hsize, hge, hpage, ?_, hroom.aligned, ?_,
    hmode.aligned, ?_, ?_, ?_⟩
  · rw [hsize]
    exact hroom.window
  · rw [hsize]
    exact hroom.high
  · rw [hsize]
    exact hw.buffer.frames.aligned
  · rw [hsize]
    exact hw.buffer.frames.distinct
  · rw [hsize]
    exact fun i hi j hj => hw.buffer.frames.ne_data hi (hw.data hapart hmode ⟨j, hj, rfl⟩).1

theorem Windowed.mapped (hapart : Apart (FbFrame b tag) s₀ s.tables) (hmode : Mode b tag)
    (hroom : FbRoom s (pageCount PAGE_SIZE (tag.pitch * tag.height)))
    (hroom₁ : Room s₁ (pageCount PAGE_SIZE (tag.pitch * tag.height)))
    (hw : Windowed s s₁ s' b.fbTag.framebufferAddr (pageCount PAGE_SIZE (tag.pitch * tag.height)) frame) :
    Mapped (Fb.fbInit tag s.largeAllocBase) b.fbTag.framebufferAddr frame s'.tables := by
  have hsize := fbInit_size tag s.largeAllocBase
  have hlow := hroom.window
  have hhigh := hroom.high
  have hbase := hw.base
  have hbelow := hmode.below
  have haligned := hmode.aligned
  have hoffset : FRAMEBUFFER_OFFSET = 0xc0e00000 := rfl
  have hlast : ∀ x < tag.pitch * tag.height,
      x < pageCount PAGE_SIZE (tag.pitch * tag.height) * 4096 := by
    intro x hx
    simp only [pageCount, PAGE_SIZE]
    omega
  refine ⟨hw.buffer.edits.own, fun x hx => ?_, fun x hx => ?_, fun f hf => ?_, fun v hv helse a ha => ?_⟩
  · rw [hsize] at hx
    have hx' := hlast x hx
    generalize pageCount PAGE_SIZE (tag.pitch * tag.height) = n at *
    have hv : KernelVirt (FRAMEBUFFER_OFFSET + x) := ⟨by omega, by omega⟩
    have hphys : b.fbTag.framebufferAddr + x / 4096 * 4096 < 2 ^ 32 := by omega
    have he := pageEntry_entry (PAGE_PRESENT ||| PAGE_RW ||| PAGE_PCD ||| PAGE_PWT) hphys
    have ht := hw.window.target (x := x) (by decide) hx' hv.lt hv.dirIndex.2 he
    rw [show (Fb.fbInit tag s.largeAllocBase).physAddr = FRAMEBUFFER_OFFSET from rfl,
      hw.buffer.edits.others hv.lt hv.dirIndex.2 (by omega), ht]
    refine congrArg some ?_
    simp only [frameOf]
    omega
  · rw [hsize] at hx
    have ht := hw.buffer.translate hroom₁ (hlast x hx)
    rw [hbase] at ht
    exact ht
  · obtain ⟨i, hi, rfl | rfl⟩ := hf
    · rw [hsize] at hi
      exact (hw.data hapart hmode ⟨i, hi, rfl⟩).2
    · rw [hsize] at hi
      exact hw.buffer.frames.data i hi
  · obtain ⟨hwindow, hbuffer⟩ := helse
    rw [hsize] at hwindow hbuffer
    rw [hw.buffer.edits.others hv.lt hv.dirIndex.2 (by rw [hbase]; exact hbuffer),
      hw.window.others hv.lt hv.dirIndex.2 hwindow] at ha
    have hdata := hapart.before.pages v hv a ha
    have hdata₁ := (hw.window.kept _ (frameOf_aligned a) hdata).1
    refine ⟨(hw.buffer.edits.kept _ (frameOf_aligned a) hdata₁).1, ?_⟩
    rintro ⟨i, hi, heq | heq⟩
    · rw [hsize] at hi
      exact hapart.pages v hv a ha ⟨i, hi, heq⟩
    · rw [hsize] at hi
      exact hw.buffer.frames.ne_data hi hdata₁ heq.symm

end Windowed

/-- **`fb_init`.** -/
theorem fbInit_shows (h : Reached b d boot₀ s₀ boots s.tables) (hmode : Mode b tag)
    (hroom : FbRoom s (pageCount PAGE_SIZE (tag.pitch * tag.height)))
    (hboots : ∀ phys, BootEvent.map phys ∈ boots → ¬ FbFrame b tag (frameOf phys)) :
    ∃ s' frame, fbInit s b.fbTag.framebufferAddr tag =
        some (Fb.fbInit tag s.largeAllocBase, s') ∧
      Panel (Fb.fbInit tag s.largeAllocBase) b.fbTag.framebufferAddr frame ∧
      Mapped (Fb.fbInit tag s.largeAllocBase) b.fbTag.framebufferAddr frame s'.tables := by
  have hapart := fbFrame_apart h hmode hboots
  obtain ⟨s₁, s', frame, hcall, hroom₁, hw⟩ := fbInit_windowed hapart.before hmode hroom
  exact ⟨s', frame, hcall, hw.panel hapart hmode hroom, hw.mapped hapart hmode hroom hroom₁⟩

/-! ## Main results -/

/-- What is in the back buffer, and what the monitor shows of the framebuffer at `phys`. -/
def shown (fb : FramebufferT) (phys : Nat) (s : System) : Shown where
  ticks := s.pit.ticks
  back x := (load8 s.mem (fb.addr + x)).getD 0
  front x := s.mem.phys (phys + x)

def isTick : Event → Bool
  | .tick _ => true
  | _ => false

theorem front_held {fb : FramebufferT} {es : List Event} {t : Shown}
    (h : t.ticks % 16 + es.countP isTick < 16) : (es.foldl (Shown.apply fb) t).front = t.front := by
  induction es generalizing t with
  | nil => rfl
  | cons e es ih =>
    rw [List.foldl_cons]
    rw [List.countP_cons] at h
    cases e with
    | pixel px => exact ih h
    | byte x b => exact ih h
    | other => exact ih h
    | tick console =>
      rw [isTick, if_pos rfl] at h
      have hticks : (t.apply fb (.tick console)).ticks = (t.ticks + 1) % 2 ^ 32 := rfl
      rw [ih (by omega), Shown.apply]
      exact if_neg (by omega)

section Monitor

variable {fb : FramebufferT} {s₁ : KernelMem} {pit : PitState}

theorem fbInit_agrees (h : Reached b d boot₀ s₀ boots s.tables) (hmode : Mode b tag)
    (hroom : FbRoom s (pageCount PAGE_SIZE (tag.pitch * tag.height)))
    (hboots : ∀ phys, BootEvent.map phys ∈ boots → ¬ FbFrame b tag (frameOf phys))
    (hinit : fbInit s b.fbTag.framebufferAddr tag = some (fb, s₁)) :
    ∃ frame, Panel fb b.fbTag.framebufferAddr frame ∧ ∀ pit : PitState,
      Agrees fb b.fbTag.framebufferAddr frame ⟨s₁.tables, pit⟩
        (shown fb b.fbTag.framebufferAddr ⟨s₁.tables, pit⟩) := by
  obtain ⟨s', frame, hcall, hp, hmapped⟩ := fbInit_shows h hmode hroom hboots
  rw [hinit] at hcall
  obtain ⟨rfl, rfl⟩ := Prod.mk.inj (Option.some.inj hcall)
  refine ⟨frame, hp, fun pit => ⟨rfl, hmapped, fun x hx => ?_, fun x _ => rfl⟩⟩
  dsimp only [shown]
  rw [load8, hmapped.buffer x hx, Option.map_some, Option.getD_some]

/-! ### A byte on the monitor of `ramdiskBoot` -/

/-- The mode that the header asks for. -/
def headerTag : FbTag := Fb.landscape.tag

theorem headerTag_size : (16 ≤ headerTag.width ∧ 16 ≤ headerTag.height) ∧
    headerTag.width < 2 ^ 32 ∧ headerTag.height < 2 ^ 32 := by
  decide

def headerScreen : Console.Framebuffer where
  width := headerTag.width
  height := headerTag.height
  pitch := headerTag.pitch
  width_ge := headerTag_size.1.1
  height_ge := headerTag_size.1.2
  pitch_ge := headerTag.pitch_ge
  width_lt := headerTag_size.2.1
  height_lt := headerTag_size.2.2

theorem headerTag_mode : Mode ramdiskBoot headerTag where
  pitch_eq := rfl
  height_eq := rfl
  bpp := rfl
  words := by decide
  aligned := by decide
  fits := ⟨by decide, by decide⟩
  below := by decide
  behind := by decide

theorem ramdisk_room : ∃ boot₀ s, Reached ramdiskBoot ramdiskData boot₀ s.tables [] s.tables ∧
    FbRoom s (pageCount PAGE_SIZE (headerTag.pitch * headerTag.height)) := by
  have hmem : ramdiskBoot.kernel.physEnd ≤ ramdiskBoot.pages * PAGE_SIZE := by decide
  have hcount : pageCount PAGE_SIZE (headerTag.pitch * headerTag.height) = 768 := by decide
  obtain ⟨boot₀, s₀, hreached, hspare⟩ := reached_start ramdiskBoot ramdiskData hmem
    (n := 2 * 768 + 768) (show 1 ≤ 0x400 by decide) fun k hlo hhi => ramdiskBoot_offers hlo (by omega)
  have hwindow : FRAMEBUFFER_OFFSET + 768 * 4096 ≤ LARGE_ALLOC_BASE := by decide
  have hhigh : LARGE_ALLOC_BASE + 768 * 4096 ≤ 0xff000000 := by decide
  have haligned : LARGE_ALLOC_BASE % 4096 = 0 := by decide
  refine ⟨boot₀, ⟨⟨fun _ => 0, 0, 0, 0, 0, 0, s₀⟩, LARGE_ALLOC_BASE⟩, hreached, ?_⟩
  rw [hcount]
  exact ⟨hwindow, Nat.le_refl _, hhigh, haligned, hspare⟩

theorem toggled_onScreen (addr : Nat) :
    ∀ px ∈ (consoleToggleCursor (Console.consoleInit headerScreen)).1,
      OnScreen (Fb.fbInit headerTag addr) px := by
  intro px hpx
  obtain ⟨hx, hy, -⟩ := (Console.consoleToggleCursor_inside Console.inScreen_init).1 px hpx
  exact ⟨hx, hy⟩

def fifteenTicks : PitState := ⟨15, ⟨0, 0, 0, 1, 1, 2025⟩, false, false⟩

/-- A byte is stored, the sixteenth tick comes, and another byte is stored in its place. -/
theorem twoBytes_run (h : Reached b d boot₀ s₀ boots s.tables) (hmode : Mode b headerTag)
    (hroom : FbRoom s (pageCount PAGE_SIZE (headerTag.pitch * headerTag.height)))
    (hboots : ∀ phys, BootEvent.map phys ∈ boots → ¬ FbFrame b headerTag (frameOf phys)) :
    ∃ fb s₁ s₂ s₃, fbInit s b.fbTag.framebufferAddr headerTag = some (fb, s₁) ∧
      fb.size = 4096 * 768 ∧ s₂.pit.ticks = 16 ∧
      Run (ScreenStep fb) ⟨s₁.tables, fifteenTicks⟩
        ([.byte 0 0x41] ++ [.tick (Console.consoleInit headerScreen)]) s₂ ∧
      Run (ScreenStep fb) s₂ [.byte 0 0x42] s₃ := by
  obtain ⟨s₁, _, hinit, -, -⟩ := fbInit_shows h hmode hroom hboots
  obtain ⟨frame, hp, hagrees⟩ := fbInit_agrees h hmode hroom hboots hinit
  have hsize := fbInit_size headerTag s.largeAllocBase
  have hpos : 0 < (Fb.fbInit headerTag s.largeAllocBase).size := by
    rw [hsize]
    decide
  have h₁ := hagrees fifteenTicks
  generalize shown _ _ _ = t at h₁
  obtain ⟨hstore, hpictures⟩ := h₁.pictures.byte hp hpos 0x41
  obtain ⟨s₂, htimer, h₂⟩ := Agrees.tick hp
    (s := ⟨{ s₁.tables with phys := Function.update s₁.tables.phys (place frame 0) 0x41 }, fifteenTicks⟩)
    (t := { t with back := Function.update t.back 0 0x41 }) ⟨h₁.ticks, hpictures⟩
    (toggled_onScreen s.largeAllocBase)
  obtain ⟨hstore₃, -⟩ := h₂.pictures.byte hp hpos 0x42
  have hticks : s₂.pit.ticks = (t.ticks + 1) % 2 ^ 32 := h₂.ticks
  rw [← h₁.ticks] at hticks
  refine ⟨_, s₁, s₂, _, hinit, hsize, hticks, ?_, .single (.byte hpos hstore₃)⟩
  exact .step (.byte hpos hstore) (.single (.tick false false (toggled_onScreen _) htimer))

/-- **The monitor.**  From the start of the kernel through `fb_init` and any interleaving of drawing,
timer interrupts and the rest: the back buffer is what was drawn, the monitor shows it as of the
last sixteenth tick, and the next tick does not fault. -/
theorem monitor_refines (h : Reached b d boot₀ s₀ boots s.tables) (hmode : Mode b tag)
    (hroom : FbRoom s (pageCount PAGE_SIZE (tag.pitch * tag.height)))
    (hboots : ∀ phys, BootEvent.map phys ∈ boots → ¬ FbFrame b tag (frameOf phys))
    (hinit : fbInit s b.fbTag.framebufferAddr tag = some (fb, s₁)) {es : List Event} {s₂ : System}
    (hrun : Run (ScreenStep fb) ⟨s₁.tables, pit⟩ es s₂) :
    let t := es.foldl (Shown.apply fb) (shown fb b.fbTag.framebufferAddr ⟨s₁.tables, pit⟩)
    (∀ x < fb.size, load8 s₂.mem (fb.addr + x) = some (t.back x) ∧
      s₂.mem.phys (b.fbTag.framebufferAddr + x) = t.front x) ∧
    ∀ console, (∀ px ∈ (consoleToggleCursor console).1, OnScreen fb px) →
      timer fb console s₂ ≠ none := by
  obtain ⟨frame, hp, hagrees⟩ := fbInit_agrees h hmode hroom hboots hinit
  have h₂ := agrees_run hp hrun (hagrees pit)
  refine ⟨fun x hx => ⟨?_, h₂.pictures.front x hx⟩, fun console hconsole hnone => ?_⟩
  · rw [load8, h₂.pictures.mapped.buffer x hx, Option.map_some, h₂.pictures.back x hx]
  · obtain ⟨s', htimer, -⟩ := h₂.tick hp hconsole
    rw [hnone] at htimer
    cases htimer

/-- The first byte has come to the monitor. -/
theorem byte_monitored : ∃ (fb : FramebufferT) (s₁ : KernelMem) (s₂ : System) (es : List Event),
    Run (ScreenStep fb) ⟨s₁.tables, fifteenTicks⟩ es s₂ ∧ s₂.mem.phys 0xfd000000 = 0x41 := by
  obtain ⟨boot₀, s, hreached, hroom⟩ := ramdisk_room
  have hboots : ∀ phys, BootEvent.map phys ∈ [] → ¬ FbFrame ramdiskBoot headerTag (frameOf phys) :=
    by simp
  obtain ⟨fb, s₁, s₂, -, hinit, hsize, -, hrun, -⟩ :=
    twoBytes_run hreached headerTag_mode hroom hboots
  have hpos : 0 < 4 * (fb.size / 4) := by
    rw [hsize]
    decide
  have hmonitor := (monitor_refines hreached headerTag_mode hroom hboots hinit hrun).1 0 (by omega)
  refine ⟨fb, s₁, s₂, _, hrun, hmonitor.2.trans ?_⟩
  rw [List.foldl_append, List.foldl_cons, List.foldl_nil, List.foldl_cons, List.foldl_nil]
  simp [Shown.apply, shown, fifteenTicks, hpos]

/-- **The last picture.**  At a sixteenth tick and for the fifteen that follow, whatever is drawn
meanwhile, the monitor shows what was in the back buffer at that tick. -/
theorem monitor_held (h : Reached b d boot₀ s₀ boots s.tables) (hmode : Mode b tag)
    (hroom : FbRoom s (pageCount PAGE_SIZE (tag.pitch * tag.height)))
    (hboots : ∀ phys, BootEvent.map phys ∈ boots → ¬ FbFrame b tag (frameOf phys))
    (hinit : fbInit s b.fbTag.framebufferAddr tag = some (fb, s₁)) {past rest : List Event}
    {console : ConsoleT} {s₂ s₃ : System}
    (hpast : Run (ScreenStep fb) ⟨s₁.tables, pit⟩ (past ++ [.tick console]) s₂)
    (hticks : s₂.pit.ticks % 16 = 0) (hrest : Run (ScreenStep fb) s₂ rest s₃)
    (hcount : rest.countP isTick < 16) : ∀ x < 4 * (fb.size / 4),
      load8 s₂.mem (fb.addr + x) = some (s₃.mem.phys (b.fbTag.framebufferAddr + x)) := by
  obtain ⟨frame, hp, hagrees⟩ := fbInit_agrees h hmode hroom hboots hinit
  have h₂ := agrees_run hp hpast (hagrees pit)
  have h₃ := agrees_run hp hrest h₂
  rw [List.foldl_append, List.foldl_cons, List.foldl_nil] at h₂ h₃
  generalize past.foldl (Shown.apply fb) _ = t at h₂ h₃
  have hsame := h₂.ticks
  intro x hx
  have hsize : x < fb.size := by omega
  rw [load8, h₂.pictures.mapped.buffer x hsize, Option.map_some, h₂.pictures.back x hsize,
    h₃.pictures.front x hsize, front_held (by omega)]
  have hshow : (t.ticks + 1) % 2 ^ 32 % 16 = 0 := by
    rw [← hticks, hsame]
    rfl
  rw [Shown.apply]
  dsimp only
  rw [if_pos hshow, if_pos hx]

/-- The second byte has not come yet. -/
theorem byte_held : ∃ (fb : FramebufferT) (s₂ s₃ : System),
    Run (ScreenStep fb) s₂ [.byte 0 0x42] s₃ ∧
      load8 s₂.mem fb.addr = some (s₃.mem.phys 0xfd000000) := by
  obtain ⟨boot₀, s, hreached, hroom⟩ := ramdisk_room
  have hboots : ∀ phys, BootEvent.map phys ∈ [] → ¬ FbFrame ramdiskBoot headerTag (frameOf phys) :=
    by simp
  obtain ⟨fb, s₁, s₂, s₃, hinit, hsize, hticks, hpast, hrest⟩ :=
    twoBytes_run hreached headerTag_mode hroom hboots
  exact ⟨fb, s₂, s₃, hrest, monitor_held hreached headerTag_mode hroom hboots hinit hpast
    (by rw [hticks]) hrest (by decide) 0 (by rw [hsize]; decide)⟩

end Monitor

end Boot

end FrogKernel.Swapping
