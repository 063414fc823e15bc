import FrogKernel.Userspace.NewProcess
import FrogKernel.Userspace.Segments

/-!
# The layout of a process (`uprocess_load` in `userspace/uprocess.c`)

The heap starts at the page after the highest end of a segment, and the stack has the two
pages below `USER_STACK_TOP`.  `layout_iff` says when nothing of this overlaps.
-/

namespace FrogKernel.Loader

open FrogKernel.Bytes FrogKernel.PageTables FrogKernel.Pmm FrogKernel.Paging FrogKernel.Spaces
  FrogKernel.CStrings FrogKernel.ForeignMap FrogKernel.AddressSpace
open FrogKernel.Kheap (add32)

/-- The lower of the two stack pages. -/
def STACK_BOTTOM : Nat := USER_STACK_TOP - PAGE_SIZE * 2

/-- Segments, the start of the heap and the stack lie above each other. -/
structure LaidOut (segs : List Phdr) (heapStart : Nat) : Prop where
  stack : ∀ p ∈ segs, ∀ page ∈ p.pages, ¬ (STACK_BOTTOM ≤ page ∧ page < USER_STACK_TOP)
  ends : ∀ p ∈ segs, p.vaddr + p.memsz ≤ heapStart
  aligned : heapStart % PAGE_SIZE = 0
  below : heapStart ≤ STACK_BOTTOM

section Highest

variable {highest bound : Nat} {segs : List Phdr}

theorem highestEnd_cons (highest : Nat) (p : Phdr) (segs : List Phdr) :
    highestEnd highest (p :: segs) =
      highestEnd (if p.virtEnd > highest then p.virtEnd else highest) segs :=
  rfl

theorem le_highestEnd (highest : Nat) (segs : List Phdr) :
    highest ≤ highestEnd highest segs ∧ ∀ p ∈ segs, p.virtEnd ≤ highestEnd highest segs := by
  induction segs generalizing highest with
  | nil => exact ⟨Nat.le_refl _, by simp⟩
  | cons p segs ih =>
    rw [highestEnd_cons]
    obtain ⟨hstart, hrest⟩ := ih (if p.virtEnd > highest then p.virtEnd else highest)
    have hboth : highest ≤ (if p.virtEnd > highest then p.virtEnd else highest) ∧
        p.virtEnd ≤ (if p.virtEnd > highest then p.virtEnd else highest) := by
      split <;> omega
    exact ⟨hboth.1.trans hstart, List.forall_mem_cons.mpr ⟨hboth.2.trans hstart, hrest⟩⟩

theorem highestEnd_le (hstart : highest ≤ bound) (h : ∀ p ∈ segs, p.virtEnd ≤ bound) :
    highestEnd highest segs ≤ bound := by
  induction segs generalizing highest with
  | nil => exact hstart
  | cons p segs ih =>
    obtain ⟨hp, hsegs⟩ := List.forall_mem_cons.mp h
    rw [highestEnd_cons]
    refine ih ?_ hsegs
    split
    · exact hp
    · exact hstart

end Highest

section Load

variable {k : Bytes32} {data pd : Nat} {argv : List Nat} {e : Ehdr} {s s' : Machine}

/-- The loop leaves the highest end of the segments that it loaded. -/
theorem loadHeaders_highest {highest highest' : Nat} {is : List Nat}
    (h : is.foldlM (loadHeader k data e pd) (s, highest) = .ok (s', highest')) :
    highest' = highestEnd highest (is.filterMap (segmentAt k data e)) := by
  induction is generalizing s highest with
  | nil =>
    cases h
    rfl
  | cons i is ih =>
    rw [List.foldlM_cons] at h
    obtain ⟨⟨s1, highest1⟩, hheader, h⟩ := bind_ok h
    obtain ⟨o, hread, hheader⟩ := bind_ok hheader
    have hrest := ih h
    cases o with
    | none =>
      cases hheader
      rw [hrest, List.filterMap_cons, segmentAt, hread]
    | some p =>
      obtain ⟨s2, -, hheader⟩ := bind_ok hheader
      cases hheader
      rw [hrest, List.filterMap_cons, segmentAt, hread]
      rfl

theorem uprocessLoad_heapStart {l : Loaded} (hehdr : readEhdr k data = .ok e)
    (hload : uprocessLoad k s pd data argv = .ok (l, s')) :
    l.heapStart = add32 (highestEnd 0 (segments k data e)) (PAGE_SIZE - 1) &&& 0xfffff000 := by
  rw [uprocessLoad, hehdr, ok_bind] at hload
  obtain ⟨⟨s1, highest⟩, hsegments, hload⟩ := bind_ok hload
  obtain ⟨⟨esp, s2⟩, -, hload⟩ := bind_ok hload
  cases hload
  rw [loadHeaders_highest hsegments]
  rfl

end Load

/-- The rounded address is the next page boundary. -/
theorem pageUp_eq {highest : Nat} (h : highest ≤ USER_STACK_TOP) :
    ∃ n, add32 highest (PAGE_SIZE - 1) &&& 0xfffff000 = PAGE_SIZE * n ∧ highest ≤ PAGE_SIZE * n ∧
      PAGE_SIZE * n < highest + PAGE_SIZE := by
  simp only [USER_STACK_TOP] at h
  have hsum : add32 highest (PAGE_SIZE - 1) = highest + 4095 := by
    simp only [add32, PAGE_SIZE]
    omega
  have hmask : (highest + 4095) &&& 0xfffff000 = frameOf (highest + 4095) := and_mask (by omega)
  refine ⟨(highest + 4095) / 4096, ?_⟩
  rw [hsum, hmask]
  simp only [frameOf, PAGE_SIZE]
  omega

/-- A segment that ends, without a wrap-around, below the stack. -/
theorem Phdr.Checked.low {p : Phdr} (hlow : p.vaddr + p.memsz ≤ STACK_BOTTOM) :
    p.virtEnd = p.vaddr + p.memsz :=
  Nat.mod_eq_of_lt (Nat.lt_of_le_of_lt hlow (by decide))

/-! ## A page of zeros -/

/-- A file with one segment, which has one byte of zero at the address with these bytes. -/
def zeroFile (b₂ b₃ : Char8) : List Char8 :=
  [0x7f, 0x45, 0x4c, 0x46] ++ List.replicate 12 0 ++ [2, 0, 3, 0, 1, 0, 0, 0, 0, 0, 0x40, 0] ++
    [52, 0, 0, 0] ++ List.replicate 8 0 ++ [52, 0, 32, 0, 1, 0] ++ List.replicate 6 0 ++
    [1, 0, 0, 0, 84, 0, 0, 0, 0, 0xf0, b₂, b₃, 0, 0, 0, 0, 0, 0, 0, 0, 1, 0, 0, 0, 6, 0, 0, 0] ++
    List.replicate 4 0

def zeroHeader : Ehdr := ⟨0x400000, 52, 32, 1⟩

def zeroSegment (vaddr : Nat) : Phdr := ⟨84, vaddr, 0, 1, 6⟩

/-- A file with this header is loaded. -/
theorem zeroFile_loaded {k : Bytes32} {vaddr : Nat} (hehdr : readEhdr k 0xd0000000 = .ok zeroHeader)
    (h0 : readPhdr k (phdrAt 0xd0000000 zeroHeader 0) = .ok (some (zeroSegment vaddr)))
    (hvaddr : vaddr < 0xb0000000) (hframes : (zeroSegment vaddr).pages.length ≤ 2) :
    segments k 0xd0000000 zeroHeader = [zeroSegment vaddr] ∧ ∃ pd s l s',
      uprocessLoad k s pd 0xd0000000 [] = .ok (l, s') := by
  have hseg : segmentAt k 0xd0000000 zeroHeader 0 = some (zeroSegment vaddr) := by
    rw [segmentAt, h0]
  have hrange : List.range zeroHeader.phnum = [0] := rfl
  have hsegs : segments k 0xd0000000 zeroHeader = [zeroSegment vaddr] := by
    rw [segments, hrange, List.filterMap_cons_some hseg, List.filterMap_nil]
  have hheaders : ∀ i < zeroHeader.phnum, HeaderLoads k 0xd0000000 zeroHeader i := by
    intro i hi
    obtain rfl : i = 0 := Nat.lt_one_iff.mp hi
    rw [HeaderLoads, h0]
    refine Phdr.loads_of_readable (Nat.zero_le _) ?_ fun j hj => absurd hj (Nat.not_lt_zero j)
    simp only [zeroSegment]
    omega
  obtain ⟨buf, esp, hstack, -⟩ := initialStack_ok (k := k) .nil (by decide)
  have hspare : Spare (processFrames k 0xd0000000 zeroHeader) KernelAreas.bootMachine.pmm := by
    refine KernelAreas.bootMachine_spare ?_
    simp only [processFrames, segmentFrames, hsegs, List.map_cons, List.map_nil, List.sum_cons,
      List.sum_nil]
    omega
  obtain ⟨pd, l, s', hok⟩ := newProcess_ok bootMachine_ready hehdr hheaders ⟨_, hstack⟩ hspare
  obtain ⟨⟨pd', s⟩, -, hok⟩ := bind_ok hok
  obtain ⟨⟨l', s2⟩, hload, -⟩ := bind_ok hok
  exact ⟨hsegs, pd', s, l', s2, hload⟩

/-- **The layout.**  Whatever file is loaded, segments, heap start and stack do not overlap
exactly when every segment ends, computed without wrap-around, below the two stack pages. -/
theorem layout_iff {k : Bytes32} {data pd : Nat} {argv : List Nat} {e : Ehdr} {s s' : Machine}
    {l : Loaded} (hehdr : readEhdr k data = .ok e)
    (hload : uprocessLoad k s pd data argv = .ok (l, s')) :
    LaidOut (segments k data e) l.heapStart ↔
      ∀ p ∈ segments k data e, p.vaddr + p.memsz ≤ STACK_BOTTOM := by
  constructor
  · exact fun h p hp => (h.ends p hp).trans h.below
  intro hlow
  have hvirtEnd : ∀ p ∈ segments k data e, p.virtEnd ≤ STACK_BOTTOM := fun p hp => by
    rw [Phdr.Checked.low (hlow p hp)]
    exact hlow p hp
  have hhighest : highestEnd 0 (segments k data e) ≤ STACK_BOTTOM :=
    highestEnd_le (Nat.zero_le _) hvirtEnd
  obtain ⟨n, hheap, hle, hlt⟩ := pageUp_eq (hhighest.trans (by decide))
  rw [uprocessLoad_heapStart hehdr hload, hheap]
  refine ⟨fun p hp page hpage hstack => ?_, fun p hp => ?_, Nat.mul_mod_right _ _, ?_⟩
  · obtain ⟨-, -, hend⟩ := (mem_pages (segments_checked p hp) page).mp hpage
    exact Nat.not_lt_of_le (hvirtEnd p hp) (Nat.lt_of_le_of_lt hstack.1 hend)
  · rw [← Phdr.Checked.low (hlow p hp)]
    exact ((le_highestEnd 0 _).2 p hp).trans hle
  · -- both are page boundaries
    simp only [STACK_BOTTOM, USER_STACK_TOP, PAGE_SIZE] at *
    omega

/-- A page of zeros at 0x40f000. -/
theorem lowZeros_laidOut : ∃ pd s l s',
    uprocessLoad (fileMemory (zeroFile 0x40 0)) s pd 0xd0000000 [] = .ok (l, s') ∧
    LaidOut (segments (fileMemory (zeroFile 0x40 0)) 0xd0000000 zeroHeader) l.heapStart := by
  have hehdr : readEhdr (fileMemory (zeroFile 0x40 0)) 0xd0000000 = .ok zeroHeader := rfl
  have h0 : readPhdr (fileMemory (zeroFile 0x40 0)) (phdrAt 0xd0000000 zeroHeader 0) =
      .ok (some (zeroSegment 0x40f000)) := rfl
  generalize fileMemory (zeroFile 0x40 0) = k at hehdr h0 ⊢
  obtain ⟨hsegs, pd, s, l, s', hload⟩ := zeroFile_loaded hehdr h0 (by decide) (by decide)
  refine ⟨pd, s, l, s', hload, (layout_iff hehdr hload).mpr ?_⟩
  rw [hsegs]
  decide

/-- A page of zeros at 0xaffff000 is loaded without an error, and the stack hides it. -/
theorem stackZeros_hidden : ∃ pd s l s',
    uprocessLoad (fileMemory (zeroFile 0xff 0xaf)) s pd 0xd0000000 [] = .ok (l, s') ∧
    readEhdr (fileMemory (zeroFile 0xff 0xaf)) 0xd0000000 = .ok zeroHeader ∧
    ¬ LaidOut (segments (fileMemory (zeroFile 0xff 0xaf)) 0xd0000000 zeroHeader) l.heapStart := by
  have hehdr : readEhdr (fileMemory (zeroFile 0xff 0xaf)) 0xd0000000 = .ok zeroHeader := rfl
  have h0 : readPhdr (fileMemory (zeroFile 0xff 0xaf)) (phdrAt 0xd0000000 zeroHeader 0) =
      .ok (some (zeroSegment 0xaffff000)) := rfl
  generalize fileMemory (zeroFile 0xff 0xaf) = k at hehdr h0 ⊢
  obtain ⟨hsegs, pd, s, l, s', hload⟩ := zeroFile_loaded hehdr h0 (by decide) (by decide)
  refine ⟨pd, s, l, s', hload, hehdr, fun hlaid => ?_⟩
  rw [hsegs] at hlaid
  exact hlaid.stack _ (List.mem_singleton_self _) 0xaffff000 (by decide) (by decide)

end FrogKernel.Loader
