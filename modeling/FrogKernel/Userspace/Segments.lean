import FrogKernel.Userspace.NewProcess

/-!
# The segments of a process (`uprocess_load` in `userspace/uprocess.c`)

Every page that a segment touches gets a new frame, which holds the bytes of that
segment and zeros.  Where two segments touch one page, the later one hides the
bytes of the earlier one.

Main result: `segments_loaded_iff`.
-/

namespace FrogKernel.Loader

open FrogKernel.Bytes FrogKernel.PageTables FrogKernel.Pmm FrogKernel.Paging FrogKernel.Spaces
  FrogKernel.CStrings FrogKernel.ForeignMap FrogKernel.AddressSpace
open FrogKernel.Kheap (add32)

/-- `data[i]` -/
def fileByte (k : Bytes32) (data i : Nat) : BitVec 8 := (k ((data + i) % 2 ^ 32)).getD 0

/-- The segment is in memory: the bytes of the file, then zeros. -/
def Phdr.Present (k : Bytes32) (data : Nat) (u : Bytes32) (p : Phdr) : Prop :=
  (∀ j < p.filesz, u ((p.vaddr + j) % 2 ^ 32) = some (fileByte k data (p.offset + j))) ∧
    ∀ j, p.filesz ≤ j → j < p.memsz → u ((p.vaddr + j) % 2 ^ 32) = some 0

/-- No byte belongs to both segments. -/
def Phdr.Apart (p q : Phdr) : Prop := p.vaddr + p.memsz ≤ q.vaddr ∨ q.vaddr + q.memsz ≤ p.vaddr ∨
  p.memsz = 0 ∨ q.memsz = 0

/-- Segments as a linker places them: apart, and with their bytes in the file of
`size` bytes. -/
structure WellPlaced (k : Bytes32) (data size : Nat) (segs : List Phdr) : Prop where
  apart : segs.Pairwise Phdr.Apart
  filesz : ∀ p ∈ segs, p.filesz ≤ p.memsz
  inFile : ∀ p ∈ segs, p.offset + p.filesz ≤ size
  readable : Readable k data size

/-- `q`, loaded after `p`, touches no page in which `p` has a byte of the file that is
not 0. -/
def Undisturbed (k : Bytes32) (data : Nat) (p q : Phdr) : Prop :=
  ∀ j < p.filesz, q.Covers (p.vaddr + j) → fileByte k data (p.offset + j) = 0

/-- The segments end below 2^32, and the later ones spare the earlier ones. -/
def Spared (k : Bytes32) (data : Nat) (segs : List Phdr) : Prop :=
  (∀ p ∈ segs, p.vaddr + p.memsz < 2 ^ 32) ∧ segs.Pairwise (Undisturbed k data)

section Image

variable {k : Bytes32} {data : Nat} {segs : List Phdr} {virt : Nat}

theorem imageView_cons (k : Bytes32) (data : Nat) (under : Bytes32) (p : Phdr) (segs : List Phdr) :
    imageView k data under (p :: segs) =
      imageView k data (fun v => if p.Covers v then some (p.byte k data v) else under v) segs :=
  rfl

/-- Nothing is seen where no segment is. -/
theorem imageView_uncovered {under : Bytes32} (h : ∀ p ∈ segs, ¬ p.Covers virt) :
    imageView k data under segs virt = under virt := by
  induction segs generalizing under with
  | nil => rfl
  | cons p segs ih =>
    rw [imageView_cons, ih fun q hq => h q (List.mem_cons_of_mem _ hq),
      if_neg (h p (List.mem_cons_self ..))]

/-- Segments that have nothing at `virt` hide what is under them with a zero. -/
theorem imageView_hidden {under : Bytes32} (h : ∀ p ∈ segs, p.Covers virt → p.byte k data virt = 0) :
    imageView k data under segs virt =
      if ∃ p ∈ segs, p.Covers virt then some 0 else under virt := by
  induction segs generalizing under with
  | nil => simp [imageView]
  | cons p segs ih =>
    rw [imageView_cons, ih fun q hq => h q (List.mem_cons_of_mem _ hq)]
    simp only [List.exists_mem_cons_iff]
    by_cases hp : p.Covers virt
    · rw [if_pos (Or.inl hp), if_pos hp, h p (List.mem_cons_self ..) hp, ite_self]
    · simp only [hp, false_or, ↓reduceIte]

theorem Phdr.Checked.no_wrap {p : Phdr} (hlt : p.vaddr + p.memsz < 2 ^ 32) :
    p.virtEnd = p.vaddr + p.memsz :=
  Nat.mod_eq_of_lt hlt

/-- A segment covers its own bytes. -/
theorem Phdr.Checked.covers {p : Phdr} (h : p.Checked) (hlt : p.vaddr + p.memsz < 2 ^ 32) {j : Nat}
    (hj : j < p.memsz) : p.Covers (p.vaddr + j) := by
  rw [Phdr.Covers, h.virtStart_eq, Phdr.Checked.no_wrap hlt]
  simp only [frameOf]
  omega

/-- Its bytes, in the file and after it. -/
theorem Phdr.byte_eq {p : Phdr} (hfilesz : p.filesz ≤ p.memsz) (hlt : p.vaddr + p.memsz < 2 ^ 32)
    (j : Nat) : p.byte k data (p.vaddr + j) = if j < p.filesz then fileByte k data (p.offset + j) else 0 := by
  have hend : p.fileEnd = p.vaddr + p.filesz := Nat.mod_eq_of_lt (by omega)
  have hiff : (p.vaddr ≤ p.vaddr + j ∧ p.vaddr + j < p.fileEnd) ↔ j < p.filesz := by
    rw [hend]
    omega
  rw [Phdr.byte]
  simp only [hiff]
  rw [Phdr.source, fileByte, Nat.add_sub_cancel_left, Nat.add_assoc]

/-- A segment has nothing at the bytes of another. -/
theorem Phdr.Apart.byte {p q : Phdr} (h : p.Apart q) (hfilesz : q.filesz ≤ q.memsz)
    (hlt : q.vaddr + q.memsz < 2 ^ 32) {j : Nat} (hj : j < p.memsz) :
    q.byte k data (p.vaddr + j) = 0 := by
  have hend : q.fileEnd = q.vaddr + q.filesz := Nat.mod_eq_of_lt (by omega)
  rw [Phdr.byte, if_neg]
  rw [hend]
  rcases h with h | h | h | h <;> omega

/-- The first segment, under the others. -/
theorem present_first {p : Phdr} {under : Bytes32} (hp : p.Checked)
    (hfilesz : p.filesz ≤ p.memsz) (hlt : p.vaddr + p.memsz < 2 ^ 32)
    (hrest : ∀ q ∈ segs, p.Apart q ∧ q.filesz ≤ q.memsz ∧ q.vaddr + q.memsz < 2 ^ 32) :
    p.Present k data (imageView k data under (p :: segs)) ↔ ∀ q ∈ segs, Undisturbed k data p q := by
  have hseen : ∀ j < p.memsz, imageView k data under (p :: segs) ((p.vaddr + j) % 2 ^ 32) =
      if ∃ q ∈ segs, q.Covers (p.vaddr + j) then some 0
      else some (if j < p.filesz then fileByte k data (p.offset + j) else 0) := by
    intro j hj
    have hhidden : ∀ q ∈ segs, q.Covers (p.vaddr + j) → q.byte k data (p.vaddr + j) = 0 := by
      intro q hq _
      obtain ⟨h1, h2, h3⟩ := hrest q hq
      exact h1.byte h2 h3 hj
    rw [Nat.mod_eq_of_lt (by omega), imageView_cons, imageView_hidden hhidden,
      if_pos (hp.covers hlt hj), Phdr.byte_eq hfilesz hlt]
  constructor
  · intro h q hq j hj hcovers
    have hbyte := h.1 j hj
    rw [hseen j (by omega), if_pos ⟨q, hq, hcovers⟩, Option.some.injEq] at hbyte
    exact hbyte.symm
  · intro h
    refine ⟨fun j hj => ?_, fun j h1 h2 => ?_⟩
    · rw [hseen j (by omega), if_pos hj]
      split
      case isTrue hex =>
        obtain ⟨q, hq, hcovers⟩ := hex
        rw [h q hq j hj hcovers]
      case isFalse => rfl
    · have hzero : (if j < p.filesz then fileByte k data (p.offset + j) else 0) = 0 :=
        if_neg (by omega)
      rw [hseen j h2, hzero, ite_self]

theorem present_all_iff {under : Bytes32} (hchecked : ∀ p ∈ segs, p.Checked)
    (hapart : segs.Pairwise Phdr.Apart) (hfilesz : ∀ p ∈ segs, p.filesz ≤ p.memsz)
    (hlt : ∀ p ∈ segs, p.vaddr + p.memsz < 2 ^ 32) :
    (∀ p ∈ segs, p.Present k data (imageView k data under segs)) ↔
      segs.Pairwise (Undisturbed k data) := by
  induction segs generalizing under with
  | nil => simp
  | cons p segs ih =>
    rw [List.forall_mem_cons] at hchecked hfilesz hlt
    rw [List.pairwise_cons] at hapart
    rw [List.forall_mem_cons, List.pairwise_cons,
      present_first hchecked.1 hfilesz.1 hlt.1
        fun q hq => ⟨hapart.1 q hq, hfilesz.2 q hq, hlt.2 q hq⟩]
    exact and_congr_right fun _ => ih hchecked.2 hapart.2 hfilesz.2 hlt.2

end Image

/-! ## What a process sees -/

section Seen

variable {k u : Bytes32} {data : Nat} {segs : List Phdr}

/-- `u` is the image in the user half. -/
def SeesImage (k : Bytes32) (data : Nat) (segs : List Phdr) (u : Bytes32) : Prop :=
  ∀ virt < KERNEL_VIRT_BASE, u virt = imageView k data (fun _ => none) segs virt

/-- A segment that reaches 2^32 is not loaded at all. -/
theorem present_no_wrap (hu : SeesImage k data segs u) (hchecked : ∀ p ∈ segs, p.Checked)
    (h : ∀ p ∈ segs, p.Present k data u) : ∀ p ∈ segs, p.vaddr + p.memsz < 2 ^ 32 := by
  intro p hp
  by_contra hwrap
  have hvaddr := (hchecked p hp).vaddr
  simp only [KERNEL_VIRT_BASE] at hvaddr
  -- the last byte below the kernel would belong to it
  have hnone : u 0xbfffffff = none := by
    rw [hu _ (by decide)]
    refine imageView_uncovered fun q hq hcovers => ?_
    have hend := (hchecked q hq).virtEnd
    have hframe : frameOf 0xbfffffff = 0xbffff000 := by decide
    rw [Phdr.Covers, hframe] at hcovers
    simp only [USER_STACK_TOP] at hend
    omega
  have haddr : (p.vaddr + (0xbfffffff - p.vaddr)) % 2 ^ 32 = 0xbfffffff := by omega
  by_cases hfile : 0xbfffffff - p.vaddr < p.filesz
  · have hbyte := (h p hp).1 _ hfile
    rw [haddr, hnone] at hbyte
    cases hbyte
  · have hbyte := (h p hp).2 (0xbfffffff - p.vaddr) (by omega) (by omega)
    rw [haddr, hnone] at hbyte
    cases hbyte

theorem present_congr (hu : SeesImage k data segs u) {p : Phdr} (hp : p.Checked)
    (hfilesz : p.filesz ≤ p.memsz) (hlt : p.vaddr + p.memsz < 2 ^ 32) :
    p.Present k data u ↔ p.Present k data (imageView k data (fun _ => none) segs) := by
  have hend := hp.virtEnd
  rw [Phdr.Checked.no_wrap hlt] at hend
  have hsame : ∀ j < p.memsz, u ((p.vaddr + j) % 2 ^ 32) =
      imageView k data (fun _ => none) segs ((p.vaddr + j) % 2 ^ 32) := by
    intro j hj
    refine hu _ ?_
    simp only [USER_STACK_TOP, KERNEL_VIRT_BASE] at *
    omega
  refine and_congr (forall₂_congr fun j hj => ?_) (forall₃_congr fun j _ hj => ?_)
  · rw [hsame j (by omega)]
  · rw [hsame j hj]

/-- Who sees the image has all segments exactly when they spare each other. -/
theorem present_iff_spared (hu : SeesImage k data segs u) (hchecked : ∀ p ∈ segs, p.Checked)
    (hapart : segs.Pairwise Phdr.Apart) (hfilesz : ∀ p ∈ segs, p.filesz ≤ p.memsz) :
    (∀ p ∈ segs, p.Present k data u) ↔ Spared k data segs := by
  have hcongr : (∀ p ∈ segs, p.vaddr + p.memsz < 2 ^ 32) → ((∀ p ∈ segs, p.Present k data u) ↔
      segs.Pairwise (Undisturbed k data)) := by
    intro hlt
    rw [← present_all_iff hchecked hapart hfilesz hlt]
    exact forall₂_congr fun p hp => present_congr hu (hchecked p hp) (hfilesz p hp) (hlt p hp)
  constructor
  · intro h
    have hlt := present_no_wrap hu hchecked h
    exact ⟨hlt, (hcongr hlt).mp h⟩
  · rintro ⟨hlt, hspared⟩
    exact (hcongr hlt).mpr hspared

theorem segments_checked {e : Ehdr} : ∀ p ∈ segments k data e, p.Checked := by
  intro p hp
  obtain ⟨i, -, hi⟩ := List.mem_filterMap.mp hp
  rw [segmentAt] at hi
  split at hi
  case h_1 q hread =>
    cases hi
    exact readPhdr_checked hread
  case h_2 => cases hi

theorem userHalf {virt : Nat} (h : virt < KERNEL_VIRT_BASE) : virt < 2 ^ 32 ∧ dirIndex virt < 768 := by
  simp only [KERNEL_VIRT_BASE] at h
  simp only [dirIndex]
  omega

/-- After the segments are loaded into a new address space, it shows their image. -/
theorem loadSegments_sees {s s1 s2 : Machine} {pd highest : Nat} {e : Ehdr} (h : Ready s)
    (hcreate : uprocessCreatePagedir s = .ok (pd, s1))
    (hload : loadSegments k data e pd s1 = .ok (s2, highest)) :
    SeesImage k data (segments k data e) (userView s2.phys pd) := by
  obtain ⟨hb1, hempty⟩ := h.created hcreate
  rcases loadSegments_cases k data e hb1 with
    ⟨herr, -⟩ | ⟨-, halt, herr, -⟩ | ⟨-, t, role, hok, -, hb2, -, hview⟩
  · rw [hload] at herr
    cases herr
  · rw [hload] at herr
    cases herr
  rw [hload] at hok
  obtain ⟨rfl, -⟩ := Prod.mk.inj (Except.ok.inj hok)
  intro virt hvirt
  obtain ⟨hlt, hdir⟩ := userHalf hvirt
  rw [hb2.space.userView hlt hdir, hview virt hlt hdir]
  exact imageView_congr k data _ (view_none (hempty virt hdir))

end Seen

/-! ## Two small segments -/

/-- A segment whose part of the file can be read is loaded. -/
theorem Phdr.loads_of_readable {k : Bytes32} {data : Nat} {p : Phdr} (hfilesz : p.filesz ≤ p.memsz)
    (hlt : p.vaddr + p.memsz < 2 ^ 32)
    (hread : ∀ j < p.filesz, (k ((data + p.offset + j) % 2 ^ 32)).isSome = true) :
    p.Loads k data := by
  have hend : p.fileEnd = p.vaddr + p.filesz := Nat.mod_eq_of_lt (by omega)
  intro page _ _
  rw [hend]
  exact ⟨by omega, fun virt _ _ h1 h2 => hread (virt - p.vaddr) (by omega)⟩

/-- Two bytes of code at 0x400000, and one of data, whose address has `b` for its
second byte. -/
def twoSegments (b : Char8) : List Char8 :=
  [0x7f, 0x45, 0x4c, 0x46] ++ List.replicate 12 0 ++ [2, 0, 3, 0, 1, 0, 0, 0, 0, 0, 0x40, 0] ++
    [52, 0, 0, 0] ++ List.replicate 8 0 ++ [52, 0, 32, 0, 2, 0] ++ List.replicate 6 0 ++
    [1, 0, 0, 0, 116, 0, 0, 0, 0, 0, 0x40, 0, 0, 0, 0, 0, 2, 0, 0, 0, 2, 0, 0, 0, 5, 0, 0, 0] ++
    List.replicate 4 0 ++
    [1, 0, 0, 0, 118, 0, 0, 0, 0, b, 0x40, 0, 0, 0, 0, 0, 1, 0, 0, 0, 1, 0, 0, 0, 6, 0, 0, 0] ++
    List.replicate 4 0 ++ [0xeb, 0xfe, 0x2a]

def twoHeader : Ehdr := ⟨0x400000, 52, 32, 2⟩

def codeSegment : Phdr := ⟨116, 0x400000, 2, 2, 5⟩

def dataSegment (vaddr : Nat) : Phdr := ⟨118, vaddr, 1, 1, 6⟩

/-- A file with these headers, in a page of the kernel, is loaded. -/
theorem twoSegments_loaded {k : Bytes32} {vaddr : Nat}
    (hpage : ∀ a, 0xd0000000 ≤ a → a < 0xd0001000 → (k a).isSome = true)
    (h0 : readPhdr k (phdrAt 0xd0000000 twoHeader 0) = .ok (some codeSegment))
    (h1 : readPhdr k (phdrAt 0xd0000000 twoHeader 1) = .ok (some (dataSegment vaddr)))
    (hframes : segmentFrames [codeSegment, dataSegment vaddr] ≤ 4) (hvaddr : vaddr < 0xb0000000) :
    segments k 0xd0000000 twoHeader = [codeSegment, dataSegment vaddr] ∧
      ∃ pd s1 s2 highest, uprocessCreatePagedir KernelAreas.bootMachine = .ok (pd, s1) ∧
        loadSegments k 0xd0000000 twoHeader pd s1 = .ok (s2, highest) := by
  have hseg0 : segmentAt k 0xd0000000 twoHeader 0 = some codeSegment := by rw [segmentAt, h0]
  have hseg1 : segmentAt k 0xd0000000 twoHeader 1 = some (dataSegment vaddr) := by
    rw [segmentAt, h1]
  have hrange : List.range twoHeader.phnum = [0, 1] := rfl
  have hsegs : segments k 0xd0000000 twoHeader = [codeSegment, dataSegment vaddr] := by
    rw [segments, hrange, List.filterMap_cons_some hseg0, List.filterMap_cons_some hseg1,
      List.filterMap_nil]
  have hcode : codeSegment.Loads k 0xd0000000 := by
    refine Phdr.loads_of_readable (by decide) (by decide) fun j hj => ?_
    simp only [codeSegment] at hj ⊢
    exact hpage _ (by omega) (by omega)
  have hdata : (dataSegment vaddr).Loads k 0xd0000000 := by
    refine Phdr.loads_of_readable (by simp only [dataSegment]; omega)
      (by simp only [dataSegment]; omega) fun j hj => ?_
    simp only [dataSegment] at hj ⊢
    exact hpage _ (by omega) (by omega)
  have hheaders : ∀ i < twoHeader.phnum, HeaderLoads k 0xd0000000 twoHeader i := by
    intro i hi
    have hi' : i < 2 := hi
    obtain rfl | rfl : i = 0 ∨ i = 1 := by omega
    · rw [HeaderLoads, h0]
      exact hcode
    · rw [HeaderLoads, h1]
      exact hdata
  refine ⟨hsegs, ?_⟩
  rcases bootMachine_ready.create with ⟨-, hshort⟩ | ⟨pd, s1, hcreate, huse, hb, -⟩
  · exact absurd (KernelAreas.bootMachine_spare (by decide)) hshort
  rcases loadSegments_cases k 0xd0000000 twoHeader hb with
    ⟨-, hshort⟩ | ⟨hbad, -⟩ | ⟨-, s2, role, hok, -⟩
  · rw [hsegs] at hshort
    exact absurd (huse _ (KernelAreas.bootMachine_spare (by omega))) hshort
  · exact absurd hheaders hbad
  · exact ⟨pd, s1, s2, _, hcreate, hok⟩

theorem fileMemory_page (file : List Char8) (a : Nat) (h1 : 0xd0000000 ≤ a) (h2 : a < 0xd0001000) :
    (fileMemory file a).isSome = true := by
  rw [fileMemory, if_pos ⟨h1, h2⟩]
  rfl

/-- The data lies in the page of the code. -/
theorem sharedPage_headers :
    readPhdr (fileMemory (twoSegments 0x08)) (phdrAt 0xd0000000 twoHeader 0) =
      .ok (some codeSegment) ∧
    readPhdr (fileMemory (twoSegments 0x08)) (phdrAt 0xd0000000 twoHeader 1) =
      .ok (some (dataSegment 0x400800)) :=
  ⟨rfl, rfl⟩

/-- The data lies in the next page. -/
theorem ownPages_headers :
    readPhdr (fileMemory (twoSegments 0x10)) (phdrAt 0xd0000000 twoHeader 0) =
      .ok (some codeSegment) ∧
    readPhdr (fileMemory (twoSegments 0x10)) (phdrAt 0xd0000000 twoHeader 1) =
      .ok (some (dataSegment 0x401000)) :=
  ⟨rfl, rfl⟩

/-- Both files are as a linker makes them. -/
theorem twoSegments_placed {k : Bytes32} (vaddr : Nat)
    (hpage : ∀ a, 0xd0000000 ≤ a → a < 0xd0001000 → (k a).isSome = true) (hvaddr : 0x400002 ≤ vaddr) :
    WellPlaced k 0xd0000000 119 [codeSegment, dataSegment vaddr] where
  apart := by
    rw [List.pairwise_pair]
    exact Or.inl hvaddr
  filesz := by simp [codeSegment, dataSegment]
  inFile := by simp [codeSegment, dataSegment]
  readable := fun j hj => hpage _ (by omega) (by omega)

/-! ## The segments -/

/-- **The segments.**  After the segments of a file are loaded, each of them is in
memory exactly when none wraps around and none touches a page in which an earlier
one has bytes of the file that are not 0. -/
theorem segments_loaded_iff {k : Bytes32} {data size : Nat} {s s1 s2 : Machine} {pd highest : Nat}
    {e : Ehdr} (h : Ready s) (hcreate : uprocessCreatePagedir s = .ok (pd, s1))
    (hload : loadSegments k data e pd s1 = .ok (s2, highest))
    (hplaced : WellPlaced k data size (segments k data e)) :
    (∀ p ∈ segments k data e, p.Present k data (userView s2.phys pd)) ↔
      Spared k data (segments k data e) :=
  present_iff_spared (loadSegments_sees h hcreate hload) segments_checked hplaced.apart
    hplaced.filesz

theorem ownPages_loaded : ∃ pd s1 s2 highest,
    uprocessCreatePagedir KernelAreas.bootMachine = .ok (pd, s1) ∧
    loadSegments (fileMemory (twoSegments 0x10)) 0xd0000000 twoHeader pd s1 = .ok (s2, highest) ∧
    WellPlaced (fileMemory (twoSegments 0x10)) 0xd0000000 119
      (segments (fileMemory (twoSegments 0x10)) 0xd0000000 twoHeader) ∧
    ∀ p ∈ segments (fileMemory (twoSegments 0x10)) 0xd0000000 twoHeader,
      p.Present (fileMemory (twoSegments 0x10)) 0xd0000000 (userView s2.phys pd) := by
  obtain ⟨h0, h1⟩ := ownPages_headers
  have hpage := fileMemory_page (twoSegments 0x10)
  generalize fileMemory (twoSegments 0x10) = k at h0 h1 hpage ⊢
  obtain ⟨hsegs, pd, s1, s2, highest, hcreate, hload⟩ :=
    twoSegments_loaded hpage h0 h1 (by decide +kernel) (by decide)
  have hplaced := hsegs ▸ twoSegments_placed 0x401000 hpage (by decide)
  refine ⟨pd, s1, s2, highest, hcreate, hload, hplaced,
    (segments_loaded_iff bootMachine_ready hcreate hload hplaced).mpr ?_⟩
  rw [hsegs]
  refine ⟨by simp [codeSegment, dataSegment], ?_⟩
  rw [List.pairwise_pair]
  intro j hj hcovers
  have hstart : (dataSegment 0x401000).virtStart = 0x401000 := by decide
  simp only [codeSegment] at hj hcovers
  have hlow := hcovers.1
  rw [hstart] at hlow
  omega

/-- The data segment takes the page of the code with it: the program starts with
zeros. -/
theorem sharedPage_lost : ∃ pd s1 s2 highest,
    uprocessCreatePagedir KernelAreas.bootMachine = .ok (pd, s1) ∧
    loadSegments (fileMemory (twoSegments 0x08)) 0xd0000000 twoHeader pd s1 = .ok (s2, highest) ∧
    readEhdr (fileMemory (twoSegments 0x08)) 0xd0000000 = .ok twoHeader ∧
    WellPlaced (fileMemory (twoSegments 0x08)) 0xd0000000 119
      (segments (fileMemory (twoSegments 0x08)) 0xd0000000 twoHeader) ∧
    fileByte (fileMemory (twoSegments 0x08)) 0xd0000000 116 = 0xeb ∧
    ¬ ∀ p ∈ segments (fileMemory (twoSegments 0x08)) 0xd0000000 twoHeader,
      p.Present (fileMemory (twoSegments 0x08)) 0xd0000000 (userView s2.phys pd) := by
  obtain ⟨h0, h1⟩ := sharedPage_headers
  have hpage := fileMemory_page (twoSegments 0x08)
  have hehdr : readEhdr (fileMemory (twoSegments 0x08)) 0xd0000000 = .ok twoHeader := rfl
  have hbyte : fileByte (fileMemory (twoSegments 0x08)) 0xd0000000 116 = 0xeb := rfl
  generalize fileMemory (twoSegments 0x08) = k at h0 h1 hpage hehdr hbyte ⊢
  obtain ⟨hsegs, pd, s1, s2, highest, hcreate, hload⟩ :=
    twoSegments_loaded hpage h0 h1 (by decide +kernel) (by decide)
  have hplaced := hsegs ▸ twoSegments_placed 0x400800 hpage (by decide)
  refine ⟨pd, s1, s2, highest, hcreate, hload, hehdr, hplaced, hbyte, fun hall => ?_⟩
  have hspared := (present_iff_spared (loadSegments_sees bootMachine_ready hcreate hload)
    segments_checked hplaced.apart hplaced.filesz).mp hall
  rw [hsegs] at hspared
  have hundisturbed := (List.pairwise_pair.mp hspared.2) 0 (by decide) (by decide)
  simp only [codeSegment, Nat.add_zero] at hundisturbed
  rw [hbyte] at hundisturbed
  exact absurd hundisturbed (by decide)

end FrogKernel.Loader
