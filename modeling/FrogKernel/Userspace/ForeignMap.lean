import FrogKernel.Lib.Spaces
import FrogKernel.Memory.Kheap
import FrogKernel.Memory.Paging

/-!
# Foreign frames (`userspace/uprocess.c`)

A process is put together before its page directory is loaded.  The kernel
reaches the frames of the new address space through three slots of the loaded
directory: what a slot points at is seen as a table of the recursive window.

`Edited` says what an operation leaves behind: a memory edited as if the frames
were written directly, but for the slots.
-/

namespace FrogKernel.ForeignMap

open FrogKernel.Bytes FrogKernel.PageTables FrogKernel.Pmm FrogKernel.Paging FrogKernel.Spaces
open FrogKernel.Kheap (add32)

def TEMP_PD_SLOT : Nat := 1020
def TEMP_PD_VIRT : Nat := RECURSIVE_BASE + TEMP_PD_SLOT * 0x1000
def TEMP_FRAME_SLOT : Nat := 1021
def TEMP_FRAME_VIRT : Nat := RECURSIVE_BASE + TEMP_FRAME_SLOT * 0x1000
def TEMP_PT_SLOT : Nat := 1022
def TEMP_PT_VIRT : Nat := RECURSIVE_BASE + TEMP_PT_SLOT * 0x1000

/-- Why a call does not return: `pmm_alloc_frame` finds no frame, `panic` is
called, a page fault (which ends in `panic` too), or a write past a local
array, after which nothing is known. -/
inductive Halt where
  | noFrame
  | panic (msg : String) (args : List Nat)
  | fault
  | overrun
  deriving DecidableEq

def orFault {α : Type} : Option α → Except Halt α
  | some a => .ok a
  | none => .error .fault

def allocFrame (s : Machine) : Except Halt (Nat × Machine) :=
  match pmmAllocFrame s.pmm with
  | some (phys, pmm) => .ok (phys, { s with pmm })
  | none => .error .noFrame

/-- `kern_pd[slot] = v` -/
def setSlot (s : Machine) (slot v : Nat) : Except Halt Machine :=
  orFault (store32 s (PAGE_DIR_VIRT + 4 * slot) v)

/-- `memcpy` into one page, from the bytes that `src` has at `from`. -/
def memcpy (src : Nat → Option (BitVec 8)) (s : Machine) (dst start : Nat) :
    Nat → Except Halt Machine
  | 0 => .ok s
  | n + 1 => do
    let b ← orFault (src start)
    let a ← orFault (translate s.phys s.cr3 dst)
    memcpy src { s with phys := write8 s.phys a b.toNat } (add32 dst 1) (add32 start 1) n

def copyToPhys (src : Nat → Option (BitVec 8)) (s : Machine) (phys offsetInPage start len : Nat) :
    Except Halt Machine := do
  let s ← setSlot s TEMP_FRAME_SLOT (phys ||| PAGE_PRESENT ||| PAGE_RW)
  let s ← memcpy src s (TEMP_FRAME_VIRT + offsetInPage) start len
  setSlot s TEMP_FRAME_SLOT 0

def zeroPhys (s : Machine) (phys offsetInPage len : Nat) : Except Halt Machine := do
  let s ← setSlot s TEMP_FRAME_SLOT (phys ||| PAGE_PRESENT ||| PAGE_RW)
  let s ← orFault (memset s (TEMP_FRAME_VIRT + offsetInPage) 0 len)
  setSlot s TEMP_FRAME_SLOT 0

/-- The body of `if (!(target_pd[pd_index] & PAGE_PRESENT))`. -/
def foreignTable (s : Machine) (pdIndex flags : Nat) : Except Halt Machine := do
  let (ptPhys, s) ← allocFrame s
  let s ← orFault (store32 s (TEMP_PD_VIRT + 4 * pdIndex) (ptPhys ||| pdFlags flags))
  let s ← setSlot s TEMP_PT_SLOT (ptPhys ||| PAGE_PRESENT ||| PAGE_RW)
  let s ← orFault (memset s TEMP_PT_VIRT 0 PAGE_SIZE)
  setSlot s TEMP_PT_SLOT 0

/-- What follows it: `target_pt[pt_index] = entry`. -/
def foreignEntry (s : Machine) (pdIndex ptIndex entry : Nat) : Except Halt Machine := do
  let pde ← orFault (load32 s (TEMP_PD_VIRT + 4 * pdIndex))
  let ptPhys := pde &&& 0xfffff000
  let s ← setSlot s TEMP_PT_SLOT (ptPhys ||| PAGE_PRESENT ||| PAGE_RW)
  let s ← orFault (store32 s (TEMP_PT_VIRT + 4 * ptIndex) entry)
  let s ← setSlot s TEMP_PD_SLOT 0
  setSlot s TEMP_PT_SLOT 0

def foreignMapPage (s : Machine) (pdPhys phys virt flags : Nat) : Except Halt Machine := do
  let pdIndex := virt >>> 22
  let ptIndex := (virt >>> 12) &&& 0x3ff
  let s ← setSlot s TEMP_PD_SLOT (pdPhys ||| PAGE_PRESENT ||| PAGE_RW)
  let pde ← orFault (load32 s (TEMP_PD_VIRT + 4 * pdIndex))
  let s ← (if pde &&& PAGE_PRESENT = 0 then foreignTable s pdIndex flags else .ok s)
  foreignEntry s pdIndex ptIndex (pageEntry phys flags)

/-- `new_pd[i] = kern_pd[i]` -/
def copyEntry (s : Machine) (i : Nat) : Except Halt Machine := do
  let e ← orFault (load32 s (PAGE_DIR_VIRT + 4 * i))
  orFault (store32 s (TEMP_PD_VIRT + 4 * i) e)

def uprocessCreatePagedir (s : Machine) : Except Halt (Nat × Machine) := do
  let (pdPhys, s) ← allocFrame s
  let s ← setSlot s TEMP_PD_SLOT (pdPhys ||| PAGE_PRESENT ||| PAGE_RW)
  let s ← orFault (memset s TEMP_PD_VIRT 0 (4 * 768))
  let s ← (List.range' 768 256).foldlM copyEntry s
  let s ← orFault (store32 s (TEMP_PD_VIRT + 4 * RECURSIVE_SLOT)
    (pdPhys ||| PAGE_PRESENT ||| PAGE_RW))
  let s ← orFault (store32 s (TEMP_PD_VIRT + 4 * TEMP_PD_SLOT) 0)
  let s ← setSlot s TEMP_PD_SLOT 0
  .ok (pdPhys, s)

section Bind

variable {ε α β : Type}

@[simp] theorem ok_bind (a : α) (f : α → Except ε β) : (Except.ok a >>= f) = f a :=
  rfl

@[simp] theorem error_bind (e : ε) (f : α → Except ε β) :
    ((Except.error e : Except ε α) >>= f) = .error e :=
  rfl

theorem bind_ok {x : Except ε α} {f : α → Except ε β} {b : β}
    (h : (x >>= f) = .ok b) : ∃ a, x = .ok a ∧ f a = .ok b := by
  cases x with
  | error e => cases h
  | ok a => exact ⟨a, rfl, h⟩

theorem bind_error {x : Except ε α} {f : α → Except ε β} {e : ε}
    (h : (x >>= f) = .error e) : x = .error e ∨ ∃ a, x = .ok a ∧ f a = .error e := by
  cases x with
  | error e' =>
    cases h
    exact Or.inl rfl
  | ok a => exact Or.inr ⟨a, rfl, h⟩

end Bind

@[simp] theorem orFault_some {α : Type} (a : α) : orFault (some a) = .ok a := rfl

@[simp] theorem orFault_none {α : Type} : orFault (none : Option α) = .error .fault := rfl

theorem orFault_ok {α : Type} {x : Option α} {a : α} (h : orFault x = .ok a) : x = some a := by
  cases x with
  | none => cases h
  | some b => rw [Except.ok.inj h]

/-! ## Memories that agree but for the slots -/

/-- The bytes of the slots of a directory. -/
def SlotByte (dir x : Nat) : Prop := dir + 4 * TEMP_PD_SLOT ≤ x ∧ x < dir + 4 * RECURSIVE_SLOT

/-- `m` and `m'` agree but for the slots of the loaded directory. -/
def OffSlots (dir : Nat) (m m' : Mem) : Prop := ∀ x, ¬ SlotByte dir x → m' x = m x

def IsSlot (i : Nat) : Prop := TEMP_PD_SLOT ≤ i ∧ i < RECURSIVE_SLOT

instance (i : Nat) : Decidable (IsSlot i) := inferInstanceAs (Decidable (_ ∧ _))

section OffSlots

variable {dir : Nat} {m m' m'' : Mem}

theorem OffSlots.refl (dir : Nat) (m : Mem) : OffSlots dir m m := fun _ _ => rfl

theorem OffSlots.trans (h : OffSlots dir m m') (h' : OffSlots dir m' m'') : OffSlots dir m m'' :=
  fun x hx => (h' x hx).trans (h x hx)

theorem OffSlots.slot (h : OffSlots dir m m') {i : Nat} (hi : IsSlot i) (v : Nat) :
    OffSlots dir m (writeEntry m' dir i v) := by
  intro x hx
  rw [writeEntry, write32, writeN_outside, h x hx]
  simp only [SlotByte, IsSlot, TEMP_PD_SLOT, RECURSIVE_SLOT] at *
  omega

theorem writeN_congr {m m' : Mem} {k a v x : Nat} (h : m' x = m x) :
    writeN m' a k v x = writeN m a k v x := by
  induction k generalizing m m' a v with
  | zero => exact h
  | succ k ih =>
    refine ih ?_
    simp only [write8, h]

theorem OffSlots.writeEntry (h : OffSlots dir m m') (t i e : Nat) :
    OffSlots dir (PageTables.writeEntry m t i e) (PageTables.writeEntry m' t i e) :=
  fun x hx => writeN_congr (h x hx)

theorem OffSlots.fill (h : OffSlots dir m m') (p c n : Nat) :
    OffSlots dir (Bytes.fill m p c n) (Bytes.fill m' p c n) := by
  intro x hx
  rw [fill_apply, fill_apply, h x hx]

theorem OffSlots.copy (h : OffSlots dir m m') (d : Nat) (src : Mem) (a n : Nat) :
    OffSlots dir (Bytes.copy m d src a n) (Bytes.copy m' d src a n) := by
  intro x hx
  rw [copy_apply, copy_apply, h x hx]

/-- Entries elsewhere are the same. -/
theorem OffSlots.entry (h : OffSlots dir m m') {t i : Nat} (hdir : dir % 4096 = 0)
    (ht : t % 4096 = 0) (hi : i < 1024) (hne : t = dir → ¬ IsSlot i) :
    entryAt m' t i = entryAt m t i := by
  refine readN_congr fun x h1 h2 => h x ?_
  simp only [SlotByte, IsSlot, TEMP_PD_SLOT, RECURSIVE_SLOT] at *
  omega

theorem OffSlots.recursive (h : OffSlots dir m m') (hrec : Recursive m dir) :
    Recursive m' dir := by
  have hsame := h.entry hrec.aligned hrec.aligned (i := 1023) (by decide)
    (fun _ hs => absurd hs.2 (by decide))
  exact ⟨hsame ▸ hrec.present, hsame ▸ hrec.frame⟩

end OffSlots

/-! ## A frame behind a slot -/

/-- The flags of a slot. -/
theorem slotEntry {frame : Nat} (haligned : frame % 4096 = 0) (hlt : frame < 2 ^ 32) :
    Entry (frame ||| PAGE_PRESENT ||| PAGE_RW) frame 3 := by
  rw [Nat.or_assoc]
  exact ⟨or_flags haligned (by decide), haligned, by decide, rfl, Nat.or_lt_two_pow hlt (by decide)⟩

/-- `frame` is seen at the window of slot `i`. -/
structure Window (s : Machine) (i frame : Nat) : Prop where
  recursive : Recursive s.phys s.cr3
  slot : IsSlot i
  entry : Entry (entryAt s.phys s.cr3 i) frame 3
  apart : frame ≠ s.cr3

section Window

variable {s : Machine} {i frame : Nat}

theorem IsSlot.lt (hi : IsSlot i) : i < 1024 := Nat.lt_trans hi.2 (by decide)

theorem IsSlot.ne (hi : IsSlot i) : i ≠ 1023 := Nat.ne_of_lt hi.2

theorem setSlot_eq (hrec : Recursive s.phys s.cr3) (hi : IsSlot i) (v : Nat) :
    setSlot s i v = .ok { s with phys := writeEntry s.phys s.cr3 i v } := by
  rw [setSlot, store32_dir hrec hi.lt, orFault_some]

theorem setSlot_window (hrec : Recursive s.phys s.cr3) (hi : IsSlot i) (haligned : frame % 4096 = 0)
    (hlt : frame < 2 ^ 32) (hne : frame ≠ s.cr3) :
    Window { s with phys := writeEntry s.phys s.cr3 i (frame ||| PAGE_PRESENT ||| PAGE_RW) }
      i frame := by
  refine ⟨hrec.writeEntry hi.ne hi.lt, hi, ?_, hne⟩
  dsimp only
  rw [entryAt_writeEntry_self (slotEntry haligned hlt).lt]
  exact slotEntry haligned hlt

theorem Window.translate (h : Window s i frame) {o : Nat} (ho : o < 4096) :
    translate s.phys s.cr3 (RECURSIVE_BASE + i * 0x1000 + o) = some (frame + o) := by
  rw [RECURSIVE_BASE, translate_window h.recursive h.slot.lt ho, if_pos h.entry.present,
    h.entry.frameOf]

theorem Window.load (h : Window s i frame) {j : Nat} (hj : j < 1024) :
    load32 s (RECURSIVE_BASE + i * 0x1000 + 4 * j) = some (entryAt s.phys frame j) := by
  rw [load32, h.translate (by omega), Option.map_some]
  rfl

theorem Window.store (h : Window s i frame) {j : Nat} (hj : j < 1024) (v : Nat) :
    store32 s (RECURSIVE_BASE + i * 0x1000 + 4 * j) v =
      some { s with phys := writeEntry s.phys frame j v } := by
  rw [store32, h.translate (by omega), Option.map_some]
  rfl

theorem Window.memset (h : Window s i frame) (c n : Nat) :
    memset s (RECURSIVE_BASE + i * 0x1000) c n = some { s with phys := fill s.phys frame c n } := by
  have htranslate := h.translate (o := 0) (by decide)
  rw [Nat.add_zero, Nat.add_zero] at htranslate
  rw [Paging.memset, htranslate, Option.map_some]

/-- The window stays when the loaded directory keeps its entries. -/
theorem Window.keep (h : Window s i frame) {s' : Machine} (hcr3 : s'.cr3 = s.cr3)
    (hslot : entryAt s'.phys s.cr3 i = entryAt s.phys s.cr3 i)
    (hself : entryAt s'.phys s.cr3 1023 = entryAt s.phys s.cr3 1023) : Window s' i frame := by
  refine ⟨?_, h.slot, ?_, hcr3 ▸ h.apart⟩
  · rw [hcr3]
    exact ⟨hself ▸ h.recursive.present, hself ▸ h.recursive.frame⟩
  · rw [hcr3, hslot]
    exact h.entry

theorem Window.writeEntry (h : Window s i frame) {t j : Nat} (ht : t % 4096 = 0) (hj : j < 1024)
    (hne : s.cr3 ≠ t) (e : Nat) : Window { s with phys := writeEntry s.phys t j e } i frame :=
  have hal := h.recursive.aligned
  h.keep rfl (entryAt_writeEntry_ne ht hal hj h.slot.lt (Or.inl hne))
    (entryAt_writeEntry_ne ht hal hj (by decide) (Or.inl hne))

theorem Window.writeSlot (h : Window s i frame) {j : Nat} (hj : IsSlot j) (hne : i ≠ j) (e : Nat) :
    Window { s with phys := PageTables.writeEntry s.phys s.cr3 j e } i frame :=
  have hal := h.recursive.aligned
  h.keep rfl (entryAt_writeEntry_ne hal hal hj.lt h.slot.lt (Or.inr hne))
    (entryAt_writeEntry_ne hal hal hj.lt (by decide) (Or.inr hj.ne.symm))

theorem Window.clear (h : Window s i frame) {t : Nat} (ht : t % 4096 = 0) (hne : s.cr3 ≠ t) :
    Window { s with phys := fill s.phys t 0 4096 } i frame :=
  have hal := h.recursive.aligned
  h.keep rfl ((entryAt_clear ht hal h.slot.lt).trans (if_neg hne))
    ((entryAt_clear ht hal (by decide)).trans (if_neg hne))

end Window

/-- The operation wrote `m`, and emptied the slots that it used. -/
structure Edited (s : Machine) (m : Mem) (pmm : PmmState) (s' : Machine) : Prop where
  cr3 : s'.cr3 = s.cr3
  pmm : s'.pmm = pmm
  off : OffSlots s.cr3 m s'.phys
  closed : present (entryAt s.phys s.cr3 TEMP_PT_SLOT) = false →
    present (entryAt s'.phys s.cr3 TEMP_PT_SLOT) = false

theorem pd_slot : IsSlot TEMP_PD_SLOT := by decide

theorem frame_slot : IsSlot TEMP_FRAME_SLOT := by decide

theorem pt_slot : IsSlot TEMP_PT_SLOT := by decide

section Operations

variable {s : Machine} {frame : Nat}

theorem present_closed (m : Mem) (dir : Nat) {i : Nat} :
    present (entryAt (writeEntry m dir i 0) dir i) = false := by
  rw [entryAt_writeEntry_self (by decide)]
  rfl

/-- Entry `i` of the loaded directory after writes elsewhere. -/
theorem entryAt_slot {m : Mem} {dir i j e : Nat} (hdir : dir % 4096 = 0) (hi : IsSlot i)
    (hj : IsSlot j) (hne : i ≠ j) : entryAt (writeEntry m dir j e) dir i = entryAt m dir i :=
  entryAt_writeEntry_ne hdir hdir hj.lt hi.lt (Or.inr hne)

/-! ## `zero_phys` and `copy_to_phys` -/

/-- A write `g` to the frame behind the slot, and the slot emptied after it. -/
theorem frameSlot_edited {g : Mem → Mem} (hrec : Recursive s.phys s.cr3) (v : Nat)
    (hoff : ∀ m m', OffSlots s.cr3 m m' → OffSlots s.cr3 (g m) (g m'))
    (hkeep : ∀ m, ∀ j < 1024, entryAt (g m) s.cr3 j = entryAt m s.cr3 j) :
    ∃ s', setSlot { s with phys := g (writeEntry s.phys s.cr3 TEMP_FRAME_SLOT v) }
      TEMP_FRAME_SLOT 0 = .ok s' ∧ Edited s (g s.phys) s.pmm s' := by
  have hal := hrec.aligned
  have hrec1 : Recursive (writeEntry s.phys s.cr3 TEMP_FRAME_SLOT v) s.cr3 :=
    hrec.writeEntry frame_slot.ne frame_slot.lt
  have hrec2 : Recursive (g (writeEntry s.phys s.cr3 TEMP_FRAME_SLOT v)) s.cr3 :=
    ⟨(hkeep _ 1023 (by decide)).symm ▸ hrec1.present, (hkeep _ 1023 (by decide)).symm ▸ hrec1.frame⟩
  refine ⟨_, setSlot_eq hrec2 frame_slot 0, rfl, rfl, ?_, fun hclosed => ?_⟩
  · exact (hoff _ _ ((OffSlots.refl s.cr3 s.phys).slot frame_slot v)).slot frame_slot 0
  · dsimp only
    rw [entryAt_slot hal pt_slot frame_slot (by decide), hkeep _ _ (by decide),
      entryAt_slot hal pt_slot frame_slot (by decide)]
    exact hclosed

theorem zeroPhys_edited (hrec : Recursive s.phys s.cr3) (haligned : frame % 4096 = 0)
    (hlt : frame < 2 ^ 32) (hne : frame ≠ s.cr3) :
    ∃ s', zeroPhys s frame 0 PAGE_SIZE = .ok s' ∧
      Edited s (fill s.phys frame 0 4096) s.pmm s' := by
  have hset := (setSlot_window hrec frame_slot haligned hlt hne).memset 0 4096
  have hback := frameSlot_edited (g := fun m => fill m frame 0 4096) hrec
    (frame ||| PAGE_PRESENT ||| PAGE_RW) (fun _ _ h => h.fill frame 0 4096) fun m j hj => by
      rw [entryAt_clear haligned hrec.aligned hj, if_neg hne.symm]
  have hvirt : TEMP_FRAME_VIRT + 0 = RECURSIVE_BASE + TEMP_FRAME_SLOT * 0x1000 := rfl
  rw [zeroPhys, setSlot_eq hrec frame_slot, ok_bind, hvirt, PAGE_SIZE, hset, orFault_some, ok_bind]
  exact hback

/-- The `n` bytes at `start` can be read. -/
def Readable (src : Nat → Option (BitVec 8)) (start n : Nat) : Prop :=
  ∀ k < n, (src ((start + k) % 2 ^ 32)).isSome = true

instance (src : Nat → Option (BitVec 8)) (start n : Nat) : Decidable (Readable src start n) :=
  inferInstanceAs (Decidable (∀ k < n, _))

/-- The bytes from `start` on. -/
def bytesAt (src : Nat → Option (BitVec 8)) (start : Nat) : Mem :=
  fun k => (src ((start + k) % 2 ^ 32)).getD 0

theorem add32_shift (start k : Nat) : (add32 start 1 + k) % 2 ^ 32 = (start + (k + 1)) % 2 ^ 32 := by
  simp only [add32]
  omega

theorem readable_succ {src : Nat → Option (BitVec 8)} {start n : Nat} (hstart : start < 2 ^ 32) :
    Readable src start (n + 1) ↔ (src start).isSome = true ∧ Readable src (add32 start 1) n := by
  have hzero : (start + 0) % 2 ^ 32 = start := Nat.mod_eq_of_lt hstart
  constructor
  · intro h
    refine ⟨?_, fun k hk => ?_⟩
    · have h0 := h 0 (Nat.succ_pos n)
      rwa [hzero] at h0
    · rw [add32_shift]
      exact h (k + 1) (by omega)
  · rintro ⟨h0, h⟩ k hk
    cases k with
    | zero => rwa [hzero]
    | succ k =>
      have hk' := h k (by omega)
      rwa [add32_shift] at hk'

section Copying

variable {i o : Nat}

theorem Window.next_lt (h : Window s i frame) : i + 1 < 1024 := by
  have hslot := h.slot.2
  simp only [RECURSIVE_SLOT] at hslot
  omega

/-- The next byte of a window. -/
theorem Window.next_addr (h : Window s i frame) (ho : o < 4096) :
    add32 (RECURSIVE_BASE + i * 0x1000 + o) 1 = RECURSIVE_BASE + i * 0x1000 + (o + 1) := by
  have hi := h.next_lt
  simp only [add32, RECURSIVE_BASE]
  omega

/-- Behind a window is that of the next slot. -/
theorem Window.behind (h : Window s i frame)
    (hclosed : present (entryAt s.phys s.cr3 (i + 1)) = false) :
    PageTables.translate s.phys s.cr3 (RECURSIVE_BASE + i * 0x1000 + 4096) = none := by
  have hpage : RECURSIVE_BASE + i * 0x1000 + 4096 = RECURSIVE_BASE + (i + 1) * 0x1000 + 0 := by omega
  rw [hpage, RECURSIVE_BASE, translate_window h.recursive h.next_lt (by decide)]
  simp [hclosed]

/-- A byte written to the frame of a window leaves the entries of the directory. -/
theorem Window.entryAt_write8 (h : Window s i frame) (ho : o < 4096) (v : Nat) {j : Nat}
    (hj : j < 1024) :
    entryAt (write8 s.phys (frame + o) v) s.cr3 j = entryAt s.phys s.cr3 j := by
  have haligned := h.entry.aligned
  have hal := h.recursive.aligned
  have hne := h.apart
  exact readN_congr fun x h1 h2 => write8_ne _ _ (by omega)

theorem Window.write8 (h : Window s i frame) (ho : o < 4096) (v : Nat) :
    Window { s with phys := Bytes.write8 s.phys (frame + o) v } i frame :=
  h.keep rfl (h.entryAt_write8 ho v h.slot.lt) (h.entryAt_write8 ho v (by decide))

end Copying

/-- **`memcpy` into a window** goes through when its bytes can be read and its
end lies in the page; the page after it is not there. -/
theorem memcpy_window (src : Nat → Option (BitVec 8)) {i o start : Nat} (n : Nat)
    (h : Window s i frame) (hclosed : present (entryAt s.phys s.cr3 (i + 1)) = false)
    (ho : o ≤ 4096) (hstart : start < 2 ^ 32) :
    memcpy src s (RECURSIVE_BASE + i * 0x1000 + o) start n =
      if Readable src start n ∧ o + n ≤ 4096 then
        .ok { s with phys := copy s.phys (frame + o) (bytesAt src start) 0 n }
      else .error .fault := by
  induction n generalizing s o start with
  | zero =>
    have hcopy : copy s.phys (frame + o) (bytesAt src start) 0 0 = s.phys := by
      funext x
      rw [copy_apply, if_neg (by omega)]
    rw [memcpy, if_pos ⟨fun k hk => absurd hk (Nat.not_lt_zero k), ho⟩, hcopy]
  | succ n ih =>
    rw [memcpy]
    simp only [readable_succ hstart]
    cases hsrc : src start with
    | none => simp
    | some b =>
      by_cases hend : o = 4096
      · subst hend
        rw [h.behind hclosed]
        simp
      · have hlt : o < 4096 := by omega
        have hclosed' := (h.entryAt_write8 hlt b.toNat h.next_lt).symm ▸ hclosed
        have hnextlt : add32 start 1 < 2 ^ 32 := Nat.mod_lt _ (by decide)
        have hih := ih (h.write8 hlt b.toNat) hclosed' (show o + 1 ≤ 4096 by omega) hnextlt
        rw [h.translate hlt, h.next_addr hlt]
        simp only [orFault_some, ok_bind, Option.isSome_some, true_and]
        rw [hih]
        have hcopy : copy (Bytes.write8 s.phys (frame + o) b.toNat) (frame + (o + 1))
            (bytesAt src (add32 start 1)) 0 n = copy s.phys (frame + o) (bytesAt src start) 0 (n + 1) := by
          funext x
          rw [copy_apply, copy_apply]
          by_cases hx : x = frame + o
          · subst hx
            have hb : bytesAt src start (0 + (frame + o - (frame + o))) = b := by
              rw [Nat.sub_self, bytesAt, Nat.add_zero, Nat.mod_eq_of_lt hstart, hsrc]
              rfl
            rw [if_neg (by omega), if_pos (by omega), write8_self, hb, BitVec.ofNat_toNat,
              BitVec.setWidth_eq]
          · rw [write8_ne _ _ hx]
            have hiff : (frame + (o + 1) ≤ x ∧ x < frame + (o + 1) + n) ↔
                (frame + o ≤ x ∧ x < frame + o + (n + 1)) := by omega
            by_cases hin : frame + o ≤ x ∧ x < frame + o + (n + 1)
            · rw [if_pos hin, if_pos (hiff.mpr hin), bytesAt, bytesAt, add32_shift]
              congr 4
              omega
            · rw [if_neg hin, if_neg (fun hc => hin (hiff.mp hc))]
        have hassoc : o + 1 + n = o + (n + 1) := by omega
        rw [hcopy, hassoc]

theorem copyToPhys_edited (src : Nat → Option (BitVec 8)) {o start n : Nat}
    (hrec : Recursive s.phys s.cr3)
    (hclosed : present (entryAt s.phys s.cr3 TEMP_PT_SLOT) = false)
    (haligned : frame % 4096 = 0) (hlt : frame < 2 ^ 32) (hne : frame ≠ s.cr3) (ho : o ≤ 4096)
    (hstart : start < 2 ^ 32) :
    if Readable src start n ∧ o + n ≤ 4096 then
      ∃ s', copyToPhys src s frame o start n = .ok s' ∧
        Edited s (copy s.phys (frame + o) (bytesAt src start) 0 n) s.pmm s'
    else copyToPhys src s frame o start n = .error .fault := by
  have hal := hrec.aligned
  have hw := setSlot_window hrec frame_slot haligned hlt hne
  have hnext : entryAt (writeEntry s.phys s.cr3 TEMP_FRAME_SLOT
      (frame ||| PAGE_PRESENT ||| PAGE_RW)) s.cr3 TEMP_PT_SLOT =
      entryAt s.phys s.cr3 TEMP_PT_SLOT :=
    entryAt_slot hal pt_slot frame_slot (by decide)
  have hcopy := memcpy_window src n hw (by dsimp only; rw [hnext.symm] at hclosed; exact hclosed)
    ho hstart
  have hvirt : TEMP_FRAME_VIRT = RECURSIVE_BASE + TEMP_FRAME_SLOT * 0x1000 := rfl
  rw [copyToPhys, setSlot_eq hrec frame_slot, ok_bind, hvirt, hcopy]
  split
  case isTrue hfits =>
    have hback := frameSlot_edited (g := fun m => copy m (frame + o) (bytesAt src start) 0 n) hrec
      (frame ||| PAGE_PRESENT ||| PAGE_RW)
      (fun _ _ h => h.copy (frame + o) (bytesAt src start) 0 n) fun m j hj => by
        refine readN_congr fun x h1 h2 => ?_
        rw [copy_apply, if_neg (by omega)]
    exact hback
  case isFalse => rfl

/-! ## `foreign_map_page` -/

theorem Edited.recursive {m : Mem} {pmm : PmmState} {s' : Machine} (h : Edited s m pmm s')
    (hrec : Recursive m s.cr3) : Recursive s'.phys s'.cr3 := by
  rw [h.cr3]
  exact h.off.recursive hrec

/-- The slots that `foreign_map_page` uses are empty, and the third is as it was. -/
structure Emptied (s s' : Machine) : Prop where
  pd : entryAt s'.phys s.cr3 TEMP_PD_SLOT = 0
  pt : entryAt s'.phys s.cr3 TEMP_PT_SLOT = 0
  frame : entryAt s'.phys s.cr3 TEMP_FRAME_SLOT = entryAt s.phys s.cr3 TEMP_FRAME_SLOT

variable {pd i j : Nat}

theorem foreignEntry_edited (h : Window s TEMP_PD_SLOT pd) (hi : i < 1024) (hj : j < 1024)
    (hne : frameOf (entryAt s.phys pd i) ≠ s.cr3) (e : Nat) :
    ∃ s', foreignEntry s i j e = .ok s' ∧
      Edited s (writeEntry s.phys (frameOf (entryAt s.phys pd i)) j e) s.pmm s' ∧ Emptied s s' := by
  have hal := h.recursive.aligned
  have hlt := entryAt_lt s.phys pd i
  have hframe : frameOf (entryAt s.phys pd i) < 2 ^ 32 := by
    have hbelow := frameOf_lt hlt
    omega
  have hw := setSlot_window h.recursive pt_slot (frameOf_aligned _) hframe hne
  have hstore := hw.store hj e
  have hw' := hw.writeEntry (frameOf_aligned _) hj hne.symm e
  have hpd := setSlot_eq hw'.recursive pd_slot 0
  have hrec := (hw'.writeSlot pd_slot (by decide) 0).recursive
  have hpt := setSlot_eq hrec pt_slot 0
  have hload := h.load hi
  have hvirt : TEMP_PD_VIRT = RECURSIVE_BASE + TEMP_PD_SLOT * 0x1000 := rfl
  have hvirt' : TEMP_PT_VIRT = RECURSIVE_BASE + TEMP_PT_SLOT * 0x1000 := rfl
  have hoff := ((((OffSlots.refl s.cr3 s.phys).slot pt_slot
    (frameOf (entryAt s.phys pd i) ||| PAGE_PRESENT ||| PAGE_RW)).writeEntry
    (frameOf (entryAt s.phys pd i)) j e).slot pd_slot 0).slot pt_slot 0
  refine ⟨{ s with phys := writeEntry (writeEntry (writeEntry (writeEntry s.phys s.cr3 TEMP_PT_SLOT
    (frameOf (entryAt s.phys pd i) ||| PAGE_PRESENT ||| PAGE_RW))
    (frameOf (entryAt s.phys pd i)) j e) s.cr3 TEMP_PD_SLOT 0) s.cr3 TEMP_PT_SLOT 0 }, ?_,
    ⟨rfl, rfl, hoff, fun _ => present_closed _ _⟩, ?_, entryAt_writeEntry_self (by decide), ?_⟩
  rotate_left
  · dsimp only
    rw [entryAt_slot hal pd_slot pt_slot (by decide), entryAt_writeEntry_self (by decide)]
  · dsimp only
    rw [entryAt_slot hal frame_slot pt_slot (by decide), entryAt_slot hal frame_slot pd_slot (by decide),
      entryAt_writeEntry_ne (frameOf_aligned _) hal hj frame_slot.lt (Or.inl hne.symm),
      entryAt_slot hal frame_slot pt_slot (by decide)]
  rw [foreignEntry, hvirt, hload, orFault_some, ok_bind]
  dsimp only at hpd hpt ⊢
  rw [and_mask hlt, setSlot_eq h.recursive pt_slot, ok_bind, hvirt', hstore, orFault_some, ok_bind,
    hpd, ok_bind, hpt]

theorem foreignTable_edited (h : Window s TEMP_PD_SLOT pd) (hpd : pd % 4096 = 0) (hi : i < 1024)
    (flags : Nat) {ptPhys : Nat} {pmm : PmmState} (halloc : pmmAllocFrame s.pmm = some (ptPhys, pmm))
    (hne : ptPhys ≠ s.cr3) :
    ∃ s', foreignTable s i flags = .ok s' ∧ Window s' TEMP_PD_SLOT pd ∧
      Edited s (newTable s.phys pd i ptPhys (ptPhys ||| pdFlags flags)) pmm s' ∧
      entryAt s'.phys s.cr3 TEMP_FRAME_SLOT = entryAt s.phys s.cr3 TEMP_FRAME_SLOT := by
  have hal := h.recursive.aligned
  have hh := pmmAllocFrame_handed halloc
  have hw : Window { s with pmm } TEMP_PD_SLOT pd := ⟨h.recursive, h.slot, h.entry, h.apart⟩
  have hstore := hw.store hi (ptPhys ||| pdFlags flags)
  have hw1 := hw.writeEntry hpd hi h.apart.symm (ptPhys ||| pdFlags flags)
  have hset := setSlot_eq hw1.recursive pt_slot (ptPhys ||| PAGE_PRESENT ||| PAGE_RW)
  have hpt := setSlot_window hw1.recursive pt_slot hh.aligned (handed_lt hh) hne
  have hclear := hpt.memset 0 4096
  have hpt' := hpt.clear hh.aligned hne.symm
  have hempty := setSlot_eq hpt'.recursive pt_slot 0
  have hw2 := hw1.writeSlot pt_slot (by decide) (ptPhys ||| PAGE_PRESENT ||| PAGE_RW)
  have hw3 := (hw2.clear hh.aligned hne.symm).writeSlot pt_slot (by decide) 0
  have hvirt : TEMP_PD_VIRT = RECURSIVE_BASE + TEMP_PD_SLOT * 0x1000 := rfl
  have hvirt' : TEMP_PT_VIRT = RECURSIVE_BASE + TEMP_PT_SLOT * 0x1000 := rfl
  have hoff := ((((OffSlots.refl s.cr3 s.phys).writeEntry pd i (ptPhys ||| pdFlags flags)).slot
    pt_slot (ptPhys ||| PAGE_PRESENT ||| PAGE_RW)).fill ptPhys 0 4096).slot pt_slot 0
  refine ⟨_, ?_, hw3, ⟨rfl, rfl, hoff, fun _ => present_closed _ _⟩, ?_⟩
  rotate_left
  · dsimp only
    rw [entryAt_slot hal frame_slot pt_slot (by decide), entryAt_clear hh.aligned hal frame_slot.lt,
      if_neg hne.symm, entryAt_slot hal frame_slot pt_slot (by decide),
      entryAt_writeEntry_ne hpd hal hi frame_slot.lt (Or.inl h.apart.symm)]
  dsimp only at hstore hset hclear hempty
  rw [foreignTable, allocFrame, halloc]
  dsimp only
  rw [ok_bind]
  dsimp only
  rw [hvirt, hstore, orFault_some, ok_bind, hset, ok_bind, hvirt', PAGE_SIZE, hclear, orFault_some,
    ok_bind, hempty]

theorem Edited.trans {m m' : Mem} {pmm pmm' : PmmState} {s' s'' : Machine}
    (h : Edited s m pmm s') (h' : Edited s' m' pmm' s'') {m'' : Mem}
    (hoff : OffSlots s.cr3 m'' m') : Edited s m'' pmm' s'' := by
  refine ⟨h'.cr3.trans h.cr3, h'.pmm, ?_, fun hclosed => ?_⟩
  · have hrest := h'.off
    rw [h.cr3] at hrest
    exact hoff.trans hrest
  · have hrest := h'.closed
    rw [h.cr3] at hrest
    exact hrest (h.closed hclosed)

/-- The directory `pd` behind its slot. -/
theorem pdSlot_edited (hrec : Recursive s.phys s.cr3) (hpd : pd % 4096 = 0) (hlt : pd < 2 ^ 32)
    (hne : pd ≠ s.cr3) : ∃ s', setSlot s TEMP_PD_SLOT (pd ||| PAGE_PRESENT ||| PAGE_RW) = .ok s' ∧
      Window s' TEMP_PD_SLOT pd ∧ Edited s s.phys s.pmm s' ∧
      entryAt s'.phys s.cr3 TEMP_FRAME_SLOT = entryAt s.phys s.cr3 TEMP_FRAME_SLOT := by
  refine ⟨_, setSlot_eq hrec pd_slot _, setSlot_window hrec pd_slot hpd hlt hne,
    ⟨rfl, rfl, (OffSlots.refl _ _).slot pd_slot _, fun hclosed => ?_⟩,
    entryAt_slot hrec.aligned frame_slot pd_slot (by decide)⟩
  dsimp only
  rw [entryAt_slot hrec.aligned pt_slot pd_slot (by decide)]
  exact hclosed

/-- **`foreign_map_page`** is one edit of the tables of `pd`, as `map_page` is of
those that are loaded. -/
theorem foreignMapPage_edited (phys flags : Nat) {virt : Nat} (hrec : Recursive s.phys s.cr3)
    (hpd : pd % 4096 = 0) (hlt : pd < 2 ^ 32) (hne : pd ≠ s.cr3)
    (hother : ∀ frame pmm, pmmAllocFrame s.pmm = some (frame, pmm) → frame ≠ s.cr3 ∧ frame ≠ pd)
    (hvirt : virt < 2 ^ 32) (htable : present (dirEntry s.phys pd virt) = true →
      frameOf (dirEntry s.phys pd virt) ≠ s.cr3) :
    (mapAt s.phys s.pmm pd virt (pageEntry phys flags) (pdFlags flags) = none →
      foreignMapPage s pd phys virt flags = .error .noFrame) ∧
    ∀ m pmm, mapAt s.phys s.pmm pd virt (pageEntry phys flags) (pdFlags flags) = some (m, pmm) →
      ∃ s', foreignMapPage s pd phys virt flags = .ok s' ∧ Edited s m pmm s' ∧ Emptied s s' := by
  have hal := hrec.aligned
  have hi := dirIndex_lt virt
  have hj := tabIndex_lt virt
  obtain ⟨s1, hslot, hw, hedit, hkept⟩ := pdSlot_edited hrec hpd hlt hne
  have hsame : entryAt s1.phys pd (dirIndex virt) = dirEntry s.phys pd virt :=
    hedit.off.entry hal hpd hi fun heq => absurd heq hne
  have hload := hw.load hi
  have hcr3 := hedit.cr3
  have hvirt' : TEMP_PD_VIRT = RECURSIVE_BASE + TEMP_PD_SLOT * 0x1000 := rfl
  simp only [foreignMapPage, shift_dirIndex hvirt, shift_tabIndex, hslot, ok_bind, hvirt', hload,
    orFault_some, and_present, hsame, mapAt]
  by_cases hp : present (dirEntry s.phys pd virt) = true
  · simp only [hp, Bool.true_eq_false, ↓reduceIte, ok_bind, Option.some.injEq, Prod.mk.injEq,
      reduceCtorEq, false_implies, true_and]
    rintro m pmm ⟨rfl, rfl⟩
    obtain ⟨s', hentry, hdone, hempty⟩ := foreignEntry_edited hw hi hj
      (by rw [hsame, hcr3]; exact htable hp) (pageEntry phys flags)
    refine ⟨s', hentry, ?_, hcr3 ▸ hempty.pd, hcr3 ▸ hempty.pt, (hcr3 ▸ hempty.frame).trans hkept⟩
    rw [hsame] at hdone
    have hall := hedit.trans hdone (hedit.off.writeEntry _ _ _)
    rw [hedit.pmm] at hall
    exact hall
  · have hp : present (dirEntry s.phys pd virt) = false := by simpa using hp
    simp only [hp, ↓reduceIte, Bool.false_eq_true]
    cases halloc : pmmAllocFrame s.pmm with
    | none =>
      have hnone : foreignTable s1 (dirIndex virt) flags = .error .noFrame := by
        rw [foreignTable, allocFrame, hedit.pmm, halloc]
        rfl
      simp [hnone]
    | some r =>
      obtain ⟨ptPhys, pmm1⟩ := r
      have hh := pmmAllocFrame_handed halloc
      obtain ⟨hne1, hnepd⟩ := hother ptPhys pmm1 halloc
      rw [← hcr3] at hne1
      obtain ⟨s2, htab, hw2, hedit2, hkept2⟩ := foreignTable_edited (i := dirIndex virt) hw hpd hi flags
        (by rw [hedit.pmm]; exact halloc) hne1
      have hentry := tableEntry_entry flags hh.aligned (handed_lt hh)
      have hedit2 : Edited s (newTable s.phys pd (dirIndex virt) ptPhys (ptPhys ||| pdFlags flags))
          pmm1 s2 := hedit.trans hedit2 ((hedit.off.writeEntry _ _ _).fill _ _ _)
      have hself : entryAt s2.phys pd (dirIndex virt) = ptPhys ||| pdFlags flags := by
        have hold := hedit2.off.entry (t := pd) (i := dirIndex virt) hal hpd hi
          fun heq => absurd heq hne
        rw [hold]
        have hnew := entryAt_newTable (m := s.phys) hpd hh.aligned hi hentry.lt hpd hi
          hnepd.symm
        rw [if_pos ⟨rfl, rfl⟩] at hnew
        exact hnew
      obtain ⟨s', hlast, hdone, hempty⟩ := foreignEntry_edited hw2 hi hj
        (by rw [hself, hentry.frameOf, hedit2.cr3, ← hcr3]; exact hne1) (pageEntry phys flags)
      simp only [Option.map_some, reduceCtorEq, false_implies, Option.some.injEq, Prod.mk.injEq,
        true_and, htab, ok_bind, hlast]
      rintro m pmm ⟨rfl, rfl⟩
      have hcr3' := hedit2.cr3
      rw [hcr3] at hkept2
      refine ⟨s', rfl, ?_, hcr3' ▸ hempty.pd, hcr3' ▸ hempty.pt,
        (hcr3' ▸ hempty.frame).trans (hkept2.trans hkept)⟩
      have hframe : frameOf (dirEntry (newTable s.phys pd (dirIndex virt) ptPhys
          (ptPhys ||| pdFlags flags)) pd virt) = frameOf (entryAt s2.phys pd (dirIndex virt)) := by
        rw [dirEntry, ← hedit2.off.entry hal hpd hi fun heq => absurd heq hne]
      rw [setEntry, hframe]
      have hall := hedit2.trans hdone (hedit2.off.writeEntry _ _ _)
      rw [hedit2.pmm] at hall
      exact hall

/-! ## `uprocess_create_pagedir` -/

/-- The new directory: nothing below the kernel, the kernel's entries above it, and
its own recursive entry. -/
structure NewDir (s : Machine) (pd : Nat) (s' : Machine) : Prop where
  handed : Handed s.pmm pd s'.pmm
  cr3 : s'.cr3 = s.cr3
  elsewhere : ∀ x, frameOf x ≠ pd → ¬ SlotByte s.cr3 x → s'.phys x = s.phys x
  entries : ∀ i < 1024, entryAt s'.phys pd i =
    if i = RECURSIVE_SLOT then pd ||| PAGE_PRESENT ||| PAGE_RW
    else if i < 768 ∨ i = TEMP_PD_SLOT then 0 else entryAt s.phys s.cr3 i
  recursive : Recursive s'.phys s'.cr3
  closed : present (entryAt s.phys s.cr3 TEMP_PT_SLOT) = false →
    present (entryAt s'.phys s.cr3 TEMP_PT_SLOT) = false

/-- The copy of entries `a` to `a + n`. -/
theorem copyEntries (h : Window s TEMP_PD_SLOT pd) (hpd : pd % 4096 = 0) {a n : Nat}
    (hn : a + n ≤ 1024) : ∃ m, (List.range' a n).foldlM copyEntry s = .ok { s with phys := m } ∧
      Window { s with phys := m } TEMP_PD_SLOT pd ∧ (∀ x, frameOf x ≠ pd → m x = s.phys x) ∧
      ∀ i < 1024, entryAt m pd i =
        if a ≤ i ∧ i < a + n then entryAt s.phys s.cr3 i else entryAt s.phys pd i := by
  have hal := h.recursive.aligned
  induction n generalizing s a with
  | zero =>
    refine ⟨s.phys, rfl, h, fun _ _ => rfl, fun i _ => ?_⟩
    rw [if_neg (by omega)]
  | succ n ih =>
    have ha : a < 1024 := by omega
    have hlt := entryAt_lt s.phys s.cr3 a
    have hload := load32_dir h.recursive ha
    have hstore := h.store ha (entryAt s.phys s.cr3 a)
    have hw := h.writeEntry hpd ha h.apart.symm (entryAt s.phys s.cr3 a)
    have hvirt : TEMP_PD_VIRT = RECURSIVE_BASE + TEMP_PD_SLOT * 0x1000 := rfl
    have hstep : copyEntry s a =
        .ok { s with phys := writeEntry s.phys pd a (entryAt s.phys s.cr3 a) } := by
      rw [copyEntry, hload, orFault_some, ok_bind, hvirt, hstore, orFault_some]
    obtain ⟨m, hloop, hw', helse, hentries⟩ := ih hw (a := a + 1) (by omega) hal
    refine ⟨m, ?_, hw', fun x hx => ?_, fun i hi => ?_⟩
    · rw [List.range'_succ, List.foldlM_cons, hstep]
      exact hloop
    · rw [helse x hx]
      refine writeN_outside _ ?_
      simp only [frameOf] at hx
      omega
    · rw [hentries i hi]
      dsimp only
      rw [entryAt_writeEntry_ne hpd hal ha hi (Or.inl h.apart.symm),
        entryAt_writeEntry hpd hpd ha hi hlt]
      by_cases hia : i = a
      · subst hia
        rw [if_neg (by omega), if_pos ⟨rfl, rfl⟩, if_pos (by omega)]
      · by_cases hin : a + 1 ≤ i ∧ i < a + 1 + n
        · rw [if_pos hin, if_pos (by omega)]
        · rw [if_neg hin, if_neg (fun hc => hia hc.2), if_neg (by omega)]

/-- **`uprocess_create_pagedir`.** -/
theorem uprocessCreatePagedir_newDir (hrec : Recursive s.phys s.cr3)
    (hused : ¬ Free s.pmm (addrToPage s.cr3)) :
    (pmmAllocFrame s.pmm = none → uprocessCreatePagedir s = .error .noFrame) ∧
    ∀ pd pmm, pmmAllocFrame s.pmm = some (pd, pmm) →
      ∃ s', uprocessCreatePagedir s = .ok (pd, s') ∧ NewDir s pd s' ∧ s'.pmm = pmm := by
  constructor
  · intro halloc
    rw [uprocessCreatePagedir, allocFrame, halloc]
    rfl
  intro pd pmm halloc
  have hh := pmmAllocFrame_handed halloc
  have hpd := hh.aligned
  have hal := hrec.aligned
  simp only [PAGE_SIZE] at hpd
  have hne : pd ≠ s.cr3 := fun heq => hused (heq ▸ hh.free)
  have hentry := slotEntry hpd (handed_lt hh)
  have hset := setSlot_eq (s := { s with pmm }) hrec pd_slot (pd ||| PAGE_PRESENT ||| PAGE_RW)
  have hw1 := setSlot_window (s := { s with pmm }) hrec pd_slot hpd (handed_lt hh) hne
  dsimp only at hset hw1
  generalize hm1 : writeEntry s.phys s.cr3 TEMP_PD_SLOT (pd ||| PAGE_PRESENT ||| PAGE_RW) = m1
    at hset hw1
  have hclear := hw1.memset 0 (4 * 768)
  have hkeep : ∀ j < 1024, entryAt (fill m1 pd 0 (4 * 768)) s.cr3 j = entryAt m1 s.cr3 j := by
    intro j hj
    refine readN_congr fun x h1 h2 => ?_
    rw [fill_apply, if_neg (by omega)]
  have hw2 : Window ⟨fill m1 pd 0 (4 * 768), pmm, s.cr3⟩ TEMP_PD_SLOT pd :=
    hw1.keep rfl (hkeep _ (by decide)) (hkeep _ (by decide))
  obtain ⟨m3, hloop, hw3, helse, hentries⟩ := copyEntries hw2 hpd (a := 768) (n := 256) (by decide)
  have hself := hw3.store (j := RECURSIVE_SLOT) (by decide) (pd ||| PAGE_PRESENT ||| PAGE_RW)
  have hw4 := hw3.writeEntry (j := RECURSIVE_SLOT) hpd (by decide) hne.symm
    (pd ||| PAGE_PRESENT ||| PAGE_RW)
  have hslot := hw4.store (j := TEMP_PD_SLOT) (by decide) 0
  have hw5 := hw4.writeEntry (j := TEMP_PD_SLOT) hpd (by decide) hne.symm 0
  have hempty := setSlot_eq hw5.recursive pd_slot 0
  have hvirt : TEMP_PD_VIRT = RECURSIVE_BASE + TEMP_PD_SLOT * 0x1000 := rfl
  dsimp only at hset hclear hloop hself hslot hempty helse hentries
  have hframe : ∀ m : Mem, ∀ j < 1024, ∀ e x, frameOf x ≠ pd → writeEntry m pd j e x = m x := by
    intro m j hj e x hx
    refine writeN_outside m ?_
    simp only [frameOf] at hx
    omega
  refine ⟨⟨writeEntry (writeEntry (writeEntry m3 pd RECURSIVE_SLOT
    (pd ||| PAGE_PRESENT ||| PAGE_RW)) pd TEMP_PD_SLOT 0) s.cr3 TEMP_PD_SLOT 0, pmm, s.cr3⟩,
    ?_, ⟨hh, rfl, fun x hx hslots => ?_, fun i hi => ?_, ?_, fun hclosed => ?_⟩, rfl⟩
  · rw [uprocessCreatePagedir, allocFrame, halloc]
    dsimp only
    rw [ok_bind]
    dsimp only
    rw [hset, ok_bind, hvirt, hclear, orFault_some, ok_bind, hloop, ok_bind, hself, orFault_some,
      ok_bind, hslot, orFault_some, ok_bind, hempty, ok_bind]
  · have hback := (OffSlots.refl s.cr3 (writeEntry (writeEntry m3 pd RECURSIVE_SLOT
      (pd ||| PAGE_PRESENT ||| PAGE_RW)) pd TEMP_PD_SLOT 0)).slot pd_slot 0 x hslots
    dsimp only
    rw [hback, hframe _ _ (by decide) _ _ hx, hframe _ _ (by decide) _ _ hx, helse x hx, fill_apply,
      if_neg (by simp only [frameOf] at hx; omega), ← hm1]
    exact (OffSlots.refl s.cr3 s.phys).slot pd_slot _ x hslots
  · dsimp only
    rw [entryAt_writeEntry_ne hal hpd (by decide) hi (Or.inl hne),
      entryAt_writeEntry hpd hpd (by decide) hi (by decide),
      entryAt_writeEntry hpd hpd (by decide) hi hentry.lt, hentries i hi]
    have hkern : i ≠ TEMP_PD_SLOT → entryAt (fill m1 pd 0 (4 * 768)) s.cr3 i =
        entryAt s.phys s.cr3 i := by
      intro hit
      rw [hkeep i hi, ← hm1, entryAt_writeEntry_ne hal hal (by decide) hi (Or.inr hit)]
    by_cases hpdslot : i = TEMP_PD_SLOT
    · subst hpdslot
      rw [if_pos ⟨rfl, rfl⟩, if_neg (by decide), if_pos (Or.inr rfl)]
    · rw [if_neg (fun hc => hpdslot hc.2)]
      by_cases hself : i = RECURSIVE_SLOT
      · rw [if_pos ⟨rfl, hself⟩, if_pos hself]
      · rw [if_neg (fun hc => hself hc.2), if_neg hself]
        by_cases hlow : i < 768
        · rw [if_neg (by omega), if_pos (Or.inl hlow)]
          exact readN_fill_zero m1 (by omega) (by omega)
        · rw [if_pos (by omega), if_neg (by simp [hlow, hpdslot]), hkern hpdslot]
  · exact (hw5.recursive.writeEntry pd_slot.ne pd_slot.lt)
  · dsimp only
    rw [entryAt_slot hal pt_slot pd_slot (by decide),
      entryAt_writeEntry_ne hpd hal (by decide) (by decide) (Or.inl hne.symm),
      entryAt_writeEntry_ne hpd hal (by decide) (by decide) (Or.inl hne.symm)]
    have hpt : entryAt m3 s.cr3 TEMP_PT_SLOT = entryAt (fill m1 pd 0 (4 * 768)) s.cr3 TEMP_PT_SLOT :=
      entryAt_congr hal (by decide) fun x hx => helse x (by rw [hx]; exact hne.symm)
    rw [hpt, hkeep _ (by decide), ← hm1, entryAt_slot hal pt_slot pd_slot (by decide)]
    exact hclosed

end Operations

end FrogKernel.ForeignMap
