import Mathlib.Data.Nat.Bitwise
import FrogKernel.Lib.PageTables
import FrogKernel.Memory.Pmm

/-!
# Paging (`memory/paging.c`)

`map_page` reaches the loaded page directory and its tables through virtual
addresses: the last directory entry points at the directory, so that the tables
are seen from `RECURSIVE_BASE` on.  The model does the same: `load32`, `store32`
and `memset` translate their address in the loaded directory and have no result
on a page fault.

`mapPage_eq` shows that, with the recursive entry in place, `map_page` is one
edit of the tables in physical memory.
-/

namespace FrogKernel.Paging

open FrogKernel.Bytes FrogKernel.PageTables FrogKernel.Pmm

def PAGE_PRESENT : Nat := 0x1
def PAGE_RW : Nat := 0x2
def PAGE_USER : Nat := 0x4

def RECURSIVE_BASE : Nat := 0xffc00000
def PAGE_DIR_VIRT : Nat := 0xfffff000
def RECURSIVE_SLOT : Nat := 1023

/-- Physical memory, the frame allocator and the loaded page directory. -/
structure Machine where
  phys : Mem
  pmm : PmmState
  cr3 : Nat

def load32 (s : Machine) (virt : Nat) : Option Nat :=
  (translate s.phys s.cr3 virt).map (read32 s.phys)

def store32 (s : Machine) (virt v : Nat) : Option Machine :=
  (translate s.phys s.cr3 virt).map fun a => { s with phys := write32 s.phys a v }

/-- `memset` of `n` bytes that lie in one page. -/
def memset (s : Machine) (virt c n : Nat) : Option Machine :=
  (translate s.phys s.cr3 virt).map fun a => { s with phys := fill s.phys a c n }

/-- `(phys & ~0xfff) | (flags & 0xfff) | PAGE_PRESENT` -/
def pageEntry (phys flags : Nat) : Nat := (phys &&& 0xfffff000) ||| (flags &&& 0xfff) ||| PAGE_PRESENT

/-- The flags of a new table. -/
def pdFlags (flags : Nat) : Nat :=
  if flags &&& PAGE_USER ≠ 0 then PAGE_PRESENT ||| PAGE_RW ||| PAGE_USER
  else PAGE_PRESENT ||| PAGE_RW

def mapPage (s : Machine) (phys virt flags : Nat) : Option Machine :=
  let pdIndex := virt >>> 22
  let ptIndex := (virt >>> 12) &&& 0x3ff
  let ptVirt := RECURSIVE_BASE + pdIndex * 0x1000
  (load32 s (PAGE_DIR_VIRT + 4 * pdIndex)).bind fun pde =>
    (if pde &&& PAGE_PRESENT = 0 then
      (pmmAllocFrame s.pmm).bind fun (ptPhys, pmm) =>
        (store32 { s with pmm } (PAGE_DIR_VIRT + 4 * pdIndex) (ptPhys ||| pdFlags flags)).bind
          fun s => memset s ptVirt 0 PAGE_SIZE
    else some s).bind fun s =>
      store32 s (ptVirt + 4 * ptIndex) (pageEntry phys flags)

/-! ## Entries -/

theorem and_present (e : Nat) : e &&& PAGE_PRESENT = 0 ↔ present e = false := by
  rw [PAGE_PRESENT, Nat.and_one_is_mod, present]
  simp

/-- A mask that clears the `k` low bits of a 32-bit value. -/
theorem and_high {x k : Nat} (hk : k ≤ 32) (hx : x < 2 ^ 32) :
    x &&& ((2 ^ (32 - k) - 1) <<< k) = x / 2 ^ k * 2 ^ k := by
  refine Nat.eq_of_testBit_eq fun i => ?_
  rw [← Nat.shiftLeft_eq, Nat.testBit_and, Nat.testBit_shiftLeft, Nat.testBit_shiftLeft,
    Nat.testBit_two_pow_sub_one, Nat.testBit_div_two_pow]
  by_cases hlow : k ≤ i
  · by_cases h32 : i < 32
    · have hlt : i - k < 32 - k := by omega
      simp [hlow, hlt]
    · have hbig : x.testBit i = false :=
        Nat.testBit_lt_two_pow (Nat.lt_of_lt_of_le hx (Nat.pow_le_pow_right (by decide) (by omega)))
      simp [hlow, hbig]
  · simp [hlow]

/-- `x & ~0xfff` of a 32-bit value. -/
theorem and_mask {x : Nat} (hx : x < 2 ^ 32) : x &&& 0xfffff000 = frameOf x :=
  and_high (k := 12) (by decide) hx

theorem or_flags {a f : Nat} (ha : a % 4096 = 0) (hf : f < 4096) : a ||| f = a + f := by
  obtain ⟨k, rfl⟩ : ∃ k, a = 2 ^ 12 * k := ⟨a / 4096, by omega⟩
  exact (Nat.two_pow_add_eq_or_of_lt (i := 12) hf k).symm

/-- A frame and flags as an entry. -/
structure Entry (e frame flags : Nat) : Prop where
  eq : e = frame + flags
  aligned : frame % 4096 = 0
  flags_lt : flags < 4096
  odd : flags % 2 = 1
  lt : e < 2 ^ 32

section Entry

variable {e frame flags : Nat}

theorem Entry.present (h : Entry e frame flags) : present e = true := by
  have heq := h.eq
  have hal := h.aligned
  have hodd := h.odd
  simp only [PageTables.present, beq_iff_eq]
  omega

theorem Entry.frameOf (h : Entry e frame flags) : frameOf e = frame := by
  have heq := h.eq
  have hal := h.aligned
  have hlt := h.flags_lt
  simp only [PageTables.frameOf]
  omega

theorem Entry.flags_eq (h : Entry e frame flags) : e % 4096 = flags := by
  have heq := h.eq
  have hal := h.aligned
  have hlt := h.flags_lt
  omega

end Entry

theorem or_one_odd (f : Nat) : (f ||| 1) % 2 = 1 := by
  rw [Nat.or_mod_two_pow (n := 1)]
  rcases Nat.mod_two_eq_zero_or_one f with h | h <;> simp [h]

theorem frameOf_lt {x : Nat} (hx : x < 2 ^ 32) : frameOf x + 4096 ≤ 2 ^ 32 := by
  simp only [frameOf]
  omega

theorem pageEntry_entry {phys : Nat} (flags : Nat) (hphys : phys < 2 ^ 32) :
    Entry (pageEntry phys flags) (frameOf phys) (flags % 4096 ||| 1) := by
  have hlt : flags % 4096 ||| 1 < 4096 :=
    Nat.or_lt_two_pow (n := 12) (Nat.mod_lt _ (by decide)) (by decide)
  have hmask : flags &&& 0xfff = flags % 4096 := Nat.and_two_pow_sub_one_eq_mod flags 12
  have heq : pageEntry phys flags = frameOf phys + (flags % 4096 ||| 1) := by
    rw [pageEntry, and_mask hphys, hmask, PAGE_PRESENT, Nat.or_assoc,
      or_flags (frameOf_aligned phys) hlt]
  have hframe := frameOf_lt hphys
  exact ⟨heq, frameOf_aligned phys, hlt, or_one_odd _, by omega⟩

theorem pdFlags_cases (flags : Nat) : pdFlags flags = 3 ∨ pdFlags flags = 7 := by
  unfold pdFlags
  split
  · exact Or.inr rfl
  · exact Or.inl rfl

theorem tableEntry_entry {frame : Nat} (flags : Nat) (haligned : frame % 4096 = 0)
    (hlt : frame < 2 ^ 32) : Entry (frame ||| pdFlags flags) frame (pdFlags flags) := by
  have hflags := pdFlags_cases flags
  exact ⟨or_flags haligned (by omega), haligned, by omega, by omega,
    Nat.or_lt_two_pow hlt (by omega)⟩

/-! ## What `map_page` does to the tables -/

/-- Map a page in the directory `dir`: give it a table if it has none, and write
the entry. -/
def mapAt (m : Mem) (pmm : PmmState) (dir virt entry flags : Nat) : Option (Mem × PmmState) :=
  if present (dirEntry m dir virt) then some (setEntry m dir virt entry, pmm)
  else (pmmAllocFrame pmm).map fun (frame, pmm) =>
    (setEntry (newTable m dir (dirIndex virt) frame (frame ||| flags)) dir virt entry, pmm)

/-- The cases of `mapAt`: the table was there, or is new. -/
theorem mapAt_cases {m m' : Mem} {pmm pmm' : PmmState} {dir virt entry tflags : Nat}
    (h : mapAt m pmm dir virt entry tflags = some (m', pmm')) :
    (present (dirEntry m dir virt) = true ∧ m' = setEntry m dir virt entry ∧ pmm' = pmm) ∨
    (present (dirEntry m dir virt) = false ∧ ∃ frame, pmmAllocFrame pmm = some (frame, pmm') ∧
      m' = setEntry (newTable m dir (dirIndex virt) frame (frame ||| tflags)) dir virt entry) := by
  rw [mapAt] at h
  split at h
  case isTrue hp =>
    obtain ⟨rfl, rfl⟩ := Prod.mk.inj (Option.some.inj h)
    exact Or.inl ⟨hp, rfl, rfl⟩
  case isFalse hp =>
    obtain ⟨⟨frame, pmm1⟩, halloc, heq⟩ := Option.map_eq_some_iff.mp h
    obtain ⟨rfl, rfl⟩ := Prod.mk.inj heq
    exact Or.inr ⟨by simpa using hp, frame, halloc, rfl⟩

theorem mapAt_none {m : Mem} {pmm : PmmState} {dir virt entry tflags : Nat} :
    mapAt m pmm dir virt entry tflags = none ↔
      present (dirEntry m dir virt) = false ∧ pmmAllocFrame pmm = none := by
  rw [mapAt]
  cases present (dirEntry m dir virt) <;> simp

theorem shift_dirIndex {virt : Nat} (hvirt : virt < 2 ^ 32) : virt >>> 22 = dirIndex virt := by
  rw [dirIndex, Nat.shiftRight_eq_div_pow]
  omega

theorem shift_tabIndex (virt : Nat) : (virt >>> 12) &&& 0x3ff = tabIndex virt := by
  rw [Nat.shiftRight_eq_div_pow]
  exact Nat.and_two_pow_sub_one_eq_mod _ 10

section Window

variable {s : Machine}

theorem load32_dir (h : Recursive s.phys s.cr3) {i : Nat} (hi : i < 1024) :
    load32 s (PAGE_DIR_VIRT + 4 * i) = some (entryAt s.phys s.cr3 i) := by
  rw [load32, PAGE_DIR_VIRT, translate_directory h (by omega)]
  rfl

theorem store32_dir (h : Recursive s.phys s.cr3) {i v : Nat} (hi : i < 1024) :
    store32 s (PAGE_DIR_VIRT + 4 * i) v = some { s with phys := writeEntry s.phys s.cr3 i v } := by
  rw [store32, PAGE_DIR_VIRT, translate_directory h (by omega)]
  rfl

theorem memset_table (h : Recursive s.phys s.cr3) {i : Nat} (hi : i < 1024)
    (hp : present (entryAt s.phys s.cr3 i) = true) :
    memset s (RECURSIVE_BASE + i * 0x1000) 0 PAGE_SIZE =
      some { s with phys := fill s.phys (frameOf (entryAt s.phys s.cr3 i)) 0 4096 } := by
  have hwindow := translate_window h hi (o := 0) (by decide)
  rw [if_pos hp, Nat.add_zero, Nat.add_zero] at hwindow
  rw [memset, RECURSIVE_BASE, hwindow, Option.map_some, PAGE_SIZE]

theorem store32_table (h : Recursive s.phys s.cr3) {i j v : Nat} (hi : i < 1024) (hj : j < 1024)
    (hp : present (entryAt s.phys s.cr3 i) = true) :
    store32 s (RECURSIVE_BASE + i * 0x1000 + 4 * j) v =
      some { s with phys := writeEntry s.phys (frameOf (entryAt s.phys s.cr3 i)) j v } := by
  rw [store32, RECURSIVE_BASE, translate_window h hi (by omega), if_pos hp]
  rfl

/-- A new table: its directory entry, then `memset` through the window. -/
theorem store32_newTable (h : Recursive s.phys s.cr3) {i frame e flags : Nat} (hi : i < 1023)
    (he : Entry e frame flags) (hne : s.cr3 ≠ frame) :
    (store32 s (PAGE_DIR_VIRT + 4 * i) e).bind
        (fun s => memset s (RECURSIVE_BASE + i * 0x1000) 0 PAGE_SIZE) =
      some { s with phys := newTable s.phys s.cr3 i frame e } ∧
    Recursive (newTable s.phys s.cr3 i frame e) s.cr3 ∧
    entryAt (newTable s.phys s.cr3 i frame e) s.cr3 i = e := by
  have hlt : i < 1024 := by omega
  have hrec : Recursive (writeEntry s.phys s.cr3 i e) s.cr3 := h.writeEntry hi.ne hlt
  have hself : entryAt (writeEntry s.phys s.cr3 i e) s.cr3 i = e := entryAt_writeEntry_self he.lt
  refine ⟨?_, hrec.clear he.aligned hne, ?_⟩
  · have hset := memset_table (s := { s with phys := writeEntry s.phys s.cr3 i e }) hrec hlt
      (by rw [hself]; exact he.present)
    rw [store32_dir h hlt, Option.bind_some, hset, hself, he.frameOf, newTable]
  · rw [newTable, entryAt_clear he.aligned h.aligned hlt, if_neg hne, hself]

end Window

theorem handed_lt {p p' : PmmState} {addr : Nat} (h : Handed p addr p') : addr < 2 ^ 32 := by
  have hbelow := h.below
  have htotal := p.total_lt
  simp only [PAGE_SIZE] at hbelow
  omega

/-- With the recursive entry in place, and the loaded directory itself not handed out
by the frame allocator, `map_page` is one edit of the tables. -/
theorem mapPage_mapAt {s : Machine} (phys flags : Nat) {virt : Nat} (hrec : Recursive s.phys s.cr3)
    (hdir : dirIndex virt < 1023) (hvirt : virt < 2 ^ 32)
    (hother : ∀ frame pmm, pmmAllocFrame s.pmm = some (frame, pmm) → s.cr3 ≠ frame) :
    mapPage s phys virt flags =
      (mapAt s.phys s.pmm s.cr3 virt (pageEntry phys flags) (pdFlags flags)).map
        fun (m, pmm) => { s with phys := m, pmm } := by
  have hi := dirIndex_lt virt
  have hj := tabIndex_lt virt
  simp only [mapPage, shift_dirIndex hvirt, shift_tabIndex, load32_dir hrec hi, Option.bind_some,
    and_present, mapAt, dirEntry]
  by_cases hp : present (entryAt s.phys s.cr3 (dirIndex virt)) = true
  · simp only [hp, Bool.true_eq_false, ↓reduceIte, Option.bind_some, Option.map_some]
    exact store32_table hrec hi hj hp
  · have hp : present (entryAt s.phys s.cr3 (dirIndex virt)) = false := by simpa using hp
    simp only [hp, ↓reduceIte, Bool.false_eq_true]
    cases halloc : pmmAllocFrame s.pmm with
    | none => rfl
    | some r =>
      obtain ⟨frame, pmm⟩ := r
      have hh := pmmAllocFrame_handed halloc
      have hentry := tableEntry_entry flags hh.aligned (handed_lt hh)
      obtain ⟨hstore, hrec', hself⟩ := store32_newTable (s := { s with pmm }) hrec hdir hentry
        (hother frame pmm halloc)
      simp only [Option.bind_some, Option.map_some]
      rw [hstore]
      dsimp only at hrec' hself ⊢
      generalize newTable s.phys s.cr3 (dirIndex virt) frame (frame ||| pdFlags flags) = m
        at hrec' hself ⊢
      have hset := store32_table (s := ⟨m, pmm, s.cr3⟩) (v := pageEntry phys flags) hrec' hi hj
        (by rw [hself]; exact hentry.present)
      rw [Option.bind_some, hset, hself, setEntry, dirEntry, hself]

/-- **`map_page`.**  It is such an edit when the loaded directory is in use. -/
theorem mapPage_eq {s : Machine} (phys flags : Nat) {virt : Nat} (hrec : Recursive s.phys s.cr3)
    (hdir : dirIndex virt < 1023) (hvirt : virt < 2 ^ 32) (hused : ¬ Free s.pmm (addrToPage s.cr3)) :
    mapPage s phys virt flags =
      (mapAt s.phys s.pmm s.cr3 virt (pageEntry phys flags) (pdFlags flags)).map
        fun (m, pmm) => { s with phys := m, pmm } :=
  mapPage_mapAt phys flags hrec hdir hvirt fun _ _ halloc heq =>
    hused (heq ▸ (pmmAllocFrame_handed halloc).free)

end FrogKernel.Paging
