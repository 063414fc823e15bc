import FrogKernel.Lib.Loops
import FrogKernel.Memory.BootFrames
import FrogKernel.Memory.KernelAreas

/-!
# The first page tables (`boot.s`, `memory/paging.c`, `kernel.c`)

`_start` maps the first 4 MiB at `0` and at `KERNEL_OFFSET`, `paging_init` lets the
directory show itself, and `remove_identity_map` takes the first mapping away again.

* `boot_tables`: the tables after `paging_init`, for every address, and that they are
  as the heap relies on;
* `identity_removed`: whatever the kernel has mapped in between, nothing of the first 4 MiB
  is mapped in the end, the kernel is, and every other address is as before.
-/

namespace FrogKernel.BootPaging

open FrogKernel.Bytes FrogKernel.Loops FrogKernel.PageTables FrogKernel.Paging FrogKernel.Pmm
  FrogKernel.PmmInit FrogKernel.Runs
open FrogKernel.KernelAreas (BootTables)
open FrogKernel.Kheap (KHEAP_VIRT_START)

abbrev Word := BitVec 32

/-- `page_directory` and `page_table_low` in the data of the kernel. -/
structure BootData (k : KernelImage) where
  pageDirectory : Nat
  pageTableLow : Nat
  directory_ge : k.virtStart ≤ pageDirectory
  directory_le : pageDirectory + 4096 ≤ k.virtEnd
  table_ge : k.virtStart ≤ pageTableLow
  table_le : pageTableLow + 4096 ≤ k.virtEnd
  directory_aligned : pageDirectory % 4096 = 0
  table_aligned : pageTableLow % 4096 = 0
  ne : pageDirectory ≠ pageTableLow

/-! ## The code -/

/-- The loop `.fill_page_table` over `ecx`; the table is at a physical address. -/
def fillPageTable (table : Nat) : Mem × Word → Option (Round (Mem × Word) Mem)
  | (m, ecx) =>
    let eax := (ecx <<< 12) ||| 0x3
    let m := write32 m (table + 4 * ecx.toNat) eax.toNat
    let ecx := ecx + 1
    if ecx.slt 1024 then some (.stay (m, ecx)) else some (.leave m)

section

variable {k : KernelImage} (d : BootData k)

/-- `page_directory - KERNEL_OFFSET` -/
def BootData.directory : Nat := d.pageDirectory - KERNEL_OFFSET

/-- `page_table_low - KERNEL_OFFSET` -/
def BootData.table : Nat := d.pageTableLow - KERNEL_OFFSET

/-- `_start` up to the load of `cr3`, with at most `rounds` rounds of its loop. -/
def start (rounds : Nat) (m : Mem) : Option (Mem × Nat) :=
  (loop (fillPageTable d.table) rounds (m, 0)).map fun m =>
    let eax := d.table ||| 0x3
    let m := write32 m d.directory eax
    let m := write32 m (d.directory + 768 * 4) eax
    (m, d.directory)

/-- `paging_init` -/
def pagingInit (s : Machine) : Option Machine :=
  let kernelPdPhys := d.pageDirectory - KERNEL_OFFSET
  store32 s (d.pageDirectory + 4 * RECURSIVE_SLOT) (kernelPdPhys ||| PAGE_PRESENT ||| PAGE_RW)

end

/-- `remove_identity_map` -/
def removeIdentityMap (s : Machine) : Option Machine := store32 s PAGE_DIR_VIRT 0

/-! ## `_start` -/

theorem fill_word {i : Nat} (hi : i < 1024) :
    ((BitVec.ofNat 32 i <<< 12) ||| 0x3).toNat = i * 4096 + 3 := by
  have h3 : (0x3 : Word).toNat = 3 := rfl
  have hshift : (BitVec.ofNat 32 i <<< 12).toNat = i * 4096 := by
    rw [BitVec.toNat_shiftLeft, BitVec.toNat_ofNat, Nat.shiftLeft_eq]
    omega
  rw [BitVec.toNat_or, hshift, h3, or_flags (by omega) (by decide)]

theorem fill_more {i : Nat} (hi : i < 1024) :
    (BitVec.ofNat 32 i + 1).slt 1024 = decide (i + 1 < 1024) := by
  have hnext : BitVec.ofNat 32 i + 1 = BitVec.ofNat 32 (i + 1) := by
    rw [BitVec.ofNat_add]
    rfl
  have hsmall : (BitVec.ofNat 32 (i + 1)).toNat = i + 1 := by
    rw [BitVec.toNat_ofNat]
    omega
  have hint : (BitVec.ofNat 32 (i + 1)).toInt = (i + 1 : Nat) := by
    rw [BitVec.toInt_eq_toNat_of_lt (by omega), hsmall]
  rw [hnext, BitVec.slt_eq_decide, hint]
  have h1024 : (1024 : Word).toInt = 1024 := rfl
  rw [h1024]
  congr 1
  exact propext (by omega)

/-- **The loop.**  From entry `i` on it fills the rest of the table. -/
theorem fill_loop {t : Nat} (ht : t % 4096 = 0) : ∀ {n i : Nat} (m : Mem), i + n = 1024 → 0 < n →
    ∃ m', loop (fillPageTable t) n (m, BitVec.ofNat 32 i) = some m' ∧
      (∀ j < 1024, entryAt m' t j = if i ≤ j then j * 4096 + 3 else entryAt m t j) ∧
      ∀ a, a < t ∨ t + 4096 ≤ a → m' a = m a := by
  intro n
  induction n with
  | zero => exact fun _ _ h => absurd h (Nat.lt_irrefl 0)
  | succ n ih =>
    intro i m hi _
    have hlt : (BitVec.ofNat 32 i).toNat = i := by
      rw [BitVec.toNat_ofNat]
      omega
    have hwrite : ∀ j < 1024, entryAt (writeEntry m t i (i * 4096 + 3)) t j =
        if j = i then i * 4096 + 3 else entryAt m t j := by
      intro j hj
      rw [entryAt_writeEntry ht ht (by omega) hj (by omega)]
      simp only [true_and]
    by_cases hn : n = 0
    · subst hn
      have hleave : fillPageTable t (m, BitVec.ofNat 32 i) =
          some (.leave (writeEntry m t i (i * 4096 + 3))) := by
        rw [fillPageTable, fill_word (by omega), fill_more (by omega), decide_eq_false (by omega), hlt]
        rfl
      refine ⟨_, loop_leave hleave 0, fun j hj => ?_, fun a ha => writeN_outside m (by omega)⟩
      rw [hwrite j hj]
      by_cases hj' : j = i
      · rw [if_pos hj', if_pos hj'.ge, hj']
      · rw [if_neg hj', if_neg (by omega)]
    · have hstay : Stays (fillPageTable t) (m, BitVec.ofNat 32 i)
          (writeEntry m t i (i * 4096 + 3), BitVec.ofNat 32 (i + 1)) := by
        rw [Stays, fillPageTable, fill_word (by omega), fill_more (by omega), decide_eq_true (by omega),
          if_pos rfl, hlt, BitVec.ofNat_add]
        rfl
      obtain ⟨m', hloop, hentries, houtside⟩ :=
        ih (writeEntry m t i (i * 4096 + 3)) (i := i + 1) (by omega) (Nat.pos_of_ne_zero hn)
      refine ⟨m', by rw [loop_stay hstay, hloop], fun j hj => ?_, fun a ha => ?_⟩
      · rw [hentries j hj]
        by_cases hle : i + 1 ≤ j
        · rw [if_pos hle, if_pos (by omega)]
        · rw [if_neg hle, hwrite j hj]
          by_cases hij : j = i
          · rw [if_pos hij, if_pos hij.ge, hij]
          · rw [if_neg hij, if_neg (by omega)]
      · rw [houtside a ha]
        exact writeN_outside m (by omega)

/-! ## The tables -/

section

variable {k : KernelImage} {d : BootData k}

theorem BootData.directory_eq (d : BootData k) :
    d.directory % 4096 = 0 ∧ d.directory + 4096 ≤ 0x400000 ∧ k.physStart ≤ d.directory ∧
      d.directory + 4096 ≤ k.physEnd := by
  have h1 := d.directory_ge
  have h2 := d.directory_le
  have h3 := d.directory_aligned
  have h4 := k.start_ge
  have h5 := k.end_le
  simp only [BootData.directory, KernelImage.physStart, KernelImage.physEnd, KERNEL_OFFSET] at *
  omega

theorem BootData.table_eq (d : BootData k) :
    d.table % 4096 = 0 ∧ d.table + 4096 ≤ 0x400000 ∧ k.physStart ≤ d.table ∧
      d.table + 4096 ≤ k.physEnd := by
  have h1 := d.table_ge
  have h2 := d.table_le
  have h3 := d.table_aligned
  have h4 := k.start_ge
  have h5 := k.end_le
  simp only [BootData.table, KernelImage.physStart, KernelImage.physEnd, KERNEL_OFFSET] at *
  omega

theorem BootData.directory_ne (d : BootData k) : d.directory ≠ d.table := by
  have h1 := d.ne
  have h2 := d.directory_ge
  have h3 := d.table_ge
  have h4 := k.start_ge
  simp only [BootData.directory, BootData.table, KERNEL_OFFSET] at *
  omega

/-- The entry that maps the first 4 MiB. -/
theorem BootData.entry (d : BootData k) : Entry (d.table ||| 0x3) d.table 3 := by
  have htable := d.table_eq
  exact ⟨or_flags htable.1 (by decide), htable.1, by decide, by decide, by
    rw [or_flags htable.1 (by decide)]; omega⟩

/-- The table of the first 4 MiB. -/
def Identity (m : Mem) (table : Nat) : Prop := ∀ j < 1024, entryAt m table j = j * 4096 + 3

theorem Identity.congr {m m' : Mem} {table : Nat} (h : Identity m table)
    (hsame : ∀ a, table ≤ a → a < table + 4096 → m' a = m a) : Identity m' table := by
  intro j hj
  rw [← h j hj]
  exact readN_congr fun a hlo hhi => hsame a (by omega) (by omega)

theorem start_eq {m m' : Mem} {rounds : Nat} (h : loop (fillPageTable d.table) rounds (m, 0) = some m') :
    start d rounds m = some (writeEntry (writeEntry m' d.directory 0 (d.table ||| 0x3)) d.directory 768
      (d.table ||| 0x3), d.directory) := by
  have hfirst : writeEntry m' d.directory 0 (d.table ||| 0x3) =
      write32 m' d.directory (d.table ||| 0x3) := by
    rw [writeEntry, Nat.mul_zero, Nat.add_zero]
  have h768 : ∀ m : Mem, writeEntry m d.directory 768 (d.table ||| 0x3) =
      write32 m (d.directory + 768 * 4) (d.table ||| 0x3) := by
    intro m
    rw [writeEntry, Nat.mul_comm]
  rw [start, h, Option.map_some, hfirst, h768]

/-- **`_start`.** -/
theorem start_tables {m : Mem} (hzero : ∀ i < 1024, entryAt m d.directory i = 0) :
    ∃ m', start d 1024 m = some (m', d.directory) ∧ Identity m' d.table ∧
      ∀ i < 1024, entryAt m' d.directory i = if i = 0 ∨ i = 768 then d.table ||| 0x3 else 0 := by
  obtain ⟨hdir, -⟩ := d.directory_eq
  obtain ⟨htable, -⟩ := d.table_eq
  have hne := d.directory_ne
  have he := d.entry.lt
  obtain ⟨m', hloop, hentries, houtside⟩ := fill_loop htable (n := 1024) (i := 0) m rfl (by decide)
  have hkept : ∀ i < 1024, entryAt m' d.directory i = 0 := by
    intro i hi
    rw [← hzero i hi]
    exact readN_congr fun a hlo hhi => houtside a (by omega)
  refine ⟨writeEntry (writeEntry m' d.directory 0 (d.table ||| 0x3)) d.directory 768 (d.table ||| 0x3),
    ?_, ?_, ?_⟩
  · exact start_eq hloop
  · intro j hj
    rw [entryAt_writeEntry_ne hdir htable (by decide) hj (Or.inl hne.symm),
      entryAt_writeEntry_ne hdir htable (by decide) hj (Or.inl hne.symm), hentries j hj,
      if_pos (Nat.zero_le _)]
  · intro i hi
    rw [entryAt_writeEntry hdir hdir (by decide) hi he, entryAt_writeEntry hdir hdir (by decide) hi he,
      hkept i hi]
    simp only [true_and]
    by_cases h768 : i = 768
    · rw [if_pos h768]
      exact (if_pos (Or.inr h768)).symm
    · rw [if_neg h768]
      by_cases h0 : i = 0
      · rw [if_pos h0]
        exact (if_pos (Or.inl h0)).symm
      · rw [if_neg h0]
        exact (if_neg (not_or.mpr ⟨h0, h768⟩)).symm

/-- An address that the table of the first 4 MiB translates. -/
theorem translate_identity {m : Mem} {dir table virt : Nat} (hidentity : Identity m table)
    (hentry : Entry (dirEntry m dir virt) table 3) : translate m dir virt = some (virt % 2 ^ 22) := by
  have hlookup : lookup m dir virt = tabIndex virt * 4096 + 3 := by
    rw [lookup, if_pos hentry.present, hentry.frameOf, hidentity _ (tabIndex_lt virt)]
  have hpresent : present (tabIndex virt * 4096 + 3) = true := by
    rw [present, beq_iff_eq]
    omega
  rw [PageTables.translate, hlookup, if_pos hpresent, frameOf, tabIndex]
  congr 1
  omega

theorem translate_absent_dir {m : Mem} {dir virt : Nat} (h : present (dirEntry m dir virt) = false) :
    translate m dir virt = none := by
  rw [PageTables.translate, lookup, if_neg (by rw [h]; exact Bool.false_ne_true)]

/-- The machine after `paging_init`. -/
structure Booted (d : BootData k) (s : Machine) : Prop where
  cr3 : s.cr3 = d.directory
  identity : Identity s.phys d.table
  entries : ∀ i < 1024, entryAt s.phys d.directory i =
    if i = 1023 then d.directory ||| 0x3 else if i = 0 ∨ i = 768 then d.table ||| 0x3 else 0

/-- **`paging_init`.** -/
theorem pagingInit_booted {m : Mem} (pmm : PmmState) (hidentity : Identity m d.table)
    (hentries : ∀ i < 1024, entryAt m d.directory i = if i = 0 ∨ i = 768 then d.table ||| 0x3 else 0) :
    ∃ s, pagingInit d ⟨m, pmm, d.directory⟩ = some s ∧ s.pmm = pmm ∧ Booted d s := by
  obtain ⟨hdir, hdirlt, -⟩ := d.directory_eq
  obtain ⟨htable, -⟩ := d.table_eq
  have hge := d.directory_ge
  have hoff := k.start_ge
  have hvirt : d.pageDirectory = KERNEL_OFFSET + d.directory := by
    rw [BootData.directory]
    omega
  have hindex : dirIndex (d.pageDirectory + 4 * RECURSIVE_SLOT) = 768 := by
    simp only [dirIndex, hvirt, KERNEL_OFFSET, RECURSIVE_SLOT]
    omega
  have hentry : Entry (dirEntry m d.directory (d.pageDirectory + 4 * RECURSIVE_SLOT)) d.table 3 := by
    rw [dirEntry, hindex, hentries 768 (by decide), if_pos (Or.inr rfl)]
    exact d.entry
  have hphys : (d.pageDirectory + 4 * RECURSIVE_SLOT) % 2 ^ 22 = d.directory + 4 * 1023 := by
    simp only [hvirt, KERNEL_OFFSET, RECURSIVE_SLOT]
    omega
  have he : d.directory ||| 0x3 < 2 ^ 32 := by
    rw [or_flags hdir (by decide)]
    omega
  have hflags : d.directory ||| PAGE_PRESENT ||| PAGE_RW = d.directory ||| 0x3 := Nat.or_assoc ..
  refine ⟨⟨writeEntry m d.directory 1023 (d.directory ||| 0x3), pmm, d.directory⟩, ?_, rfl, rfl, ?_, ?_⟩
  · rw [pagingInit, store32, translate_identity hidentity hentry, hphys, Option.map_some,
      ← BootData.directory, hflags]
    rfl
  · refine hidentity.congr fun a hlo hhi => writeN_outside m ?_
    have hne := d.directory_ne
    omega
  · intro i hi
    dsimp only
    rw [entryAt_writeEntry hdir hdir (by decide) hi he, hentries i hi]
    simp only [true_and]

/-! ## The addresses -/

/-- Where an address leads after `paging_init`: to the first 4 MiB in two ways, and in the last
4 MiB to the directory and to its table. -/
def bootMap (d : BootData k) (virt : Nat) : Option Nat :=
  if virt < 0x400000 then some virt
  else if KERNEL_OFFSET ≤ virt ∧ virt < KERNEL_OFFSET + 0x400000 then some (virt - KERNEL_OFFSET)
  else if RECURSIVE_BASE ≤ virt then
    if tabIndex virt = 1023 then some (d.directory + virt % 4096)
    else if tabIndex virt = 0 ∨ tabIndex virt = 768 then some (d.table + virt % 4096)
    else none
  else none

theorem BootData.directory_entry (d : BootData k) : Entry (d.directory ||| 0x3) d.directory 3 := by
  have hdir := d.directory_eq
  exact ⟨or_flags hdir.1 (by decide), hdir.1, by decide, by decide, by
    rw [or_flags hdir.1 (by decide)]; omega⟩

theorem Booted.recursive {s : Machine} (h : Booted d s) : Recursive s.phys d.directory := by
  have hentry := h.entries 1023 (by decide)
  rw [if_pos rfl] at hentry
  exact ⟨hentry ▸ d.directory_entry.present, hentry ▸ d.directory_entry.frameOf⟩

/-- **The first mapping**, for every address. -/
theorem Booted.translate {s : Machine} (h : Booted d s) {virt : Nat} (hvirt : virt < 2 ^ 32) :
    translate s.phys s.cr3 virt = bootMap d virt := by
  have hentry := h.entries (dirIndex virt) (dirIndex_lt virt)
  rw [h.cr3, bootMap]
  by_cases hwindow : dirIndex virt = 1023
  · have hsplit : virt = 0xffc00000 + tabIndex virt * 4096 + virt % 4096 := by
      simp only [dirIndex, tabIndex] at *
      omega
    have htab := h.entries (tabIndex virt) (tabIndex_lt virt)
    have hbase : RECURSIVE_BASE ≤ virt := by
      simp only [dirIndex, RECURSIVE_BASE] at *
      omega
    have hnotlow : ¬ virt < 0x400000 := by
      simp only [RECURSIVE_BASE] at hbase
      omega
    have hnotkernel : ¬ (KERNEL_OFFSET ≤ virt ∧ virt < KERNEL_OFFSET + 0x400000) := by
      simp only [RECURSIVE_BASE, KERNEL_OFFSET] at hbase ⊢
      omega
    have hwin := translate_window h.recursive (tabIndex_lt virt) (Nat.mod_lt virt (show 0 < 4096 by decide))
    rw [← hsplit] at hwin
    rw [hwin, htab, if_neg hnotlow, if_neg hnotkernel, if_pos hbase]
    by_cases h1023 : tabIndex virt = 1023
    · rw [if_pos h1023, if_pos h1023, d.directory_entry.present, if_pos rfl, d.directory_entry.frameOf]
    · rw [if_neg h1023, if_neg h1023]
      by_cases hlow : tabIndex virt = 0 ∨ tabIndex virt = 768
      · rw [if_pos hlow, if_pos hlow, d.entry.present, if_pos rfl, d.entry.frameOf]
      · rw [if_neg hlow, if_neg hlow, present_zero]
        rfl
  · rw [if_neg hwindow] at hentry
    have hbase : ¬ RECURSIVE_BASE ≤ virt := by
      simp only [dirIndex, RECURSIVE_BASE] at *
      omega
    by_cases hlow : dirIndex virt = 0 ∨ dirIndex virt = 768
    · rw [if_pos hlow] at hentry
      have hfirst : Entry (dirEntry s.phys d.directory virt) d.table 3 := by
        rw [dirEntry, hentry]
        exact d.entry
      rw [translate_identity h.identity hfirst]
      rcases hlow with h0 | h768
      · have hlt : virt < 0x400000 := by
          simp only [dirIndex] at h0
          omega
        rw [if_pos hlt, Nat.mod_eq_of_lt (show virt < 2 ^ 22 from hlt)]
      · have hkernel : KERNEL_OFFSET ≤ virt ∧ virt < KERNEL_OFFSET + 0x400000 := by
          simp only [dirIndex, KERNEL_OFFSET] at h768 ⊢
          omega
        have hnotlow : ¬ virt < 0x400000 := by
          simp only [KERNEL_OFFSET] at hkernel
          omega
        rw [if_neg hnotlow, if_pos hkernel]
        refine congrArg some ?_
        simp only [KERNEL_OFFSET] at hkernel ⊢
        omega
    · rw [if_neg hlow] at hentry
      have hnotlow : ¬ virt < 0x400000 := by
        simp only [dirIndex] at hlow
        omega
      have hnotkernel : ¬ (KERNEL_OFFSET ≤ virt ∧ virt < KERNEL_OFFSET + 0x400000) := by
        simp only [dirIndex, KERNEL_OFFSET] at hlow ⊢
        omega
      rw [translate_absent_dir (by rw [dirEntry, hentry, present_zero]), if_neg hnotlow,
        if_neg hnotkernel, if_neg hbase]

/-! ## What the heap relies on -/

theorem Booted.bootTables {s : Machine} (h : Booted d s) (hdir : ¬ Free s.pmm (addrToPage d.directory))
    (htable : ¬ Free s.pmm (addrToPage d.table)) : BootTables s := by
  have hentry : ∀ i < 1023, present (entryAt s.phys d.directory i) = true →
      (i = 0 ∨ i = 768) ∧ frameOf (entryAt s.phys d.directory i) = d.table := by
    intro i hi hp
    rw [h.entries i (by omega), if_neg (by omega)] at hp ⊢
    by_cases hlow : i = 0 ∨ i = 768
    · rw [if_pos hlow]
      exact ⟨hlow, d.entry.frameOf⟩
    · rw [if_neg hlow] at hp
      cases hp
  refine ⟨h.cr3 ▸ h.recursive, fun i hlo hi => ?_, fun i hi hp => ?_, fun i hi hp => ?_⟩
  · have h832 : 832 ≤ i := hlo
    rw [h.cr3, h.entries i (by omega), if_neg (by omega), if_neg (by omega), present_zero]
  · rw [h.cr3] at hp ⊢
    rw [(hentry i hi hp).2]
    exact d.directory_ne.symm
  · rw [h.cr3] at hp ⊢
    by_cases h1023 : i = 1023
    · rw [h1023, h.recursive.frame]
      exact hdir
    · rw [(hentry i (by omega) hp).2]
      exact htable

/-- A frame of the kernel is in use after `pmm_init`. -/
theorem kernel_used {b : BootInfo} {m : Mmap} {mem : Bitmap} (hscan : Scanned b m)
    (hmem : b.kernel.physEnd ≤ b.pages * PAGE_SIZE) {frame : Nat} (haligned : frame % 4096 = 0)
    (hlo : b.kernel.physStart ≤ frame) (hhi : frame + 4096 ≤ b.kernel.physEnd) :
    ¬ Free (pmmInit m b.fbTag b.kernel.fb mem) (addrToPage frame) := by
  intro hfree
  have hpage : addrToPage frame * 4096 = frame := by
    simp only [addrToPage, PAGE_SIZE]
    omega
  have hlt : addrToPage frame < totalPages m := by
    rw [hscan.pages]
    simp only [PAGE_SIZE] at hmem
    omega
  refine ((free_iff_offered hscan).mp ⟨hlt, hfree⟩).kernel ?_
  rw [Pages.touches_iff (by decide)]
  simp only [PAGE_SIZE]
  omega

end

/-- The state that `paging_init` leaves. -/
theorem booted_of_start (b : BootInfo) (d : BootData b.kernel) {m m' : Mem} {mem : Bitmap}
    {s : PmmInit.Booted} {cr3 : Nat} {s₀ : Machine}
    (hzero : ∀ i < 1024, entryAt m d.directory i = 0) (hmem : b.kernel.physEnd ≤ b.pages * PAGE_SIZE)
    (hstart : start d 1024 m = some (m', cr3)) (hboot : boot b.kernel b.tags mem = some s)
    (hpaging : pagingInit d ⟨m', s.pmm, cr3⟩ = some s₀) :
    Booted d s₀ ∧ ¬ Free s₀.pmm (addrToPage d.directory) ∧ ¬ Free s₀.pmm (addrToPage d.table) := by
  obtain ⟨m₁, hstart', hidentity, hentries⟩ := start_tables (d := d) hzero
  rw [hstart'] at hstart
  obtain ⟨rfl, rfl⟩ := Prod.mk.inj (Option.some.inj hstart)
  obtain ⟨s', hboot', hscan, hpmm⟩ := boot_some b mem
  rw [hboot'] at hboot
  obtain rfl := Option.some.inj hboot
  obtain ⟨s₀', hpaging', hsame, hbooted⟩ := pagingInit_booted s'.pmm hidentity hentries
  rw [hpaging'] at hpaging
  obtain rfl := Option.some.inj hpaging
  obtain ⟨hdir, -, hdirlo, hdirhi⟩ := d.directory_eq
  obtain ⟨htable, -, htablelo, htablehi⟩ := d.table_eq
  rw [hsame, hpmm]
  exact ⟨hbooted, kernel_used hscan hmem hdir hdirlo hdirhi,
    kernel_used hscan hmem htable htablelo htablehi⟩

/-- **The first page tables.**  From `_start` with a cleared directory, through `pmm_init` and
`paging_init`, on a machine whose memory holds the kernel: every address leads where
`bootMap` says, and the tables are as the heap relies on. -/
theorem boot_tables (b : BootInfo) (d : BootData b.kernel) {m : Mem}
    (hzero : ∀ i < 1024, entryAt m d.directory i = 0) (hmem : b.kernel.physEnd ≤ b.pages * PAGE_SIZE)
    (mem : Bitmap) : ∃ s m' cr3 s', boot b.kernel b.tags mem = some s ∧ start d 1024 m = some (m', cr3) ∧
      pagingInit d ⟨m', s.pmm, cr3⟩ = some s' ∧ BootTables s' ∧
      ∀ virt < 2 ^ 32, translate s'.phys s'.cr3 virt = bootMap d virt := by
  obtain ⟨s, hboot, hscan, hpmm⟩ := boot_some b mem
  obtain ⟨m', hstart, hidentity, hentries⟩ := start_tables (d := d) hzero
  obtain ⟨s', hpaging, hsame, hbooted⟩ := pagingInit_booted s.pmm hidentity hentries
  obtain ⟨hdir, -, hdirlo, hdirhi⟩ := d.directory_eq
  obtain ⟨htable, -, htablelo, htablehi⟩ := d.table_eq
  refine ⟨s, m', d.directory, s', hboot, hstart, hpaging, hbooted.bootTables ?_ ?_,
    fun virt hvirt => hbooted.translate hvirt⟩
  · rw [hsame, hpmm]
    exact kernel_used hscan hmem hdir hdirlo hdirhi
  · rw [hsame, hpmm]
    exact kernel_used hscan hmem htable htablelo htablehi

/-! ## Taking the first mapping away -/

/-- What the kernel does to its tables before `remove_identity_map`: `map_page` for addresses
behind its first 4 MiB, frames for the mappings, and stores to other memory. -/
inductive MapStep : Machine → Unit → Machine → Prop
  | map {s s' : Machine} {phys virt flags : Nat} : virt < 2 ^ 32 →
      dirIndex virt ≠ 0 ∧ dirIndex virt ≠ 768 ∧ dirIndex virt ≠ 1023 →
      mapPage s phys virt flags = some s' → MapStep s () s'
  | alloc {s : Machine} {frame : Nat} {pmm : PmmState} :
      pmmAllocFrame s.pmm = some (frame, pmm) → MapStep s () { s with pmm }
  | store {s : Machine} {a : Nat} (b : BitVec 8) :
      (∀ i < 1024, present (entryAt s.phys s.cr3 i) = true →
        frameOf a ≠ frameOf (entryAt s.phys s.cr3 i)) →
      MapStep s () { s with phys := write8 s.phys a b.toNat }

section

variable {k : KernelImage} {d : BootData k} {s : Machine}

/-- What stays of the first tables. -/
structure Kept (d : BootData k) (s : Machine) : Prop where
  cr3 : s.cr3 = d.directory
  recursive : Recursive s.phys d.directory
  identity : Identity s.phys d.table
  low : entryAt s.phys d.directory 0 = d.table ||| 0x3
  kernel : entryAt s.phys d.directory 768 = d.table ||| 0x3
  apart : ∀ i < 1023, i ≠ 0 → i ≠ 768 → present (entryAt s.phys d.directory i) = true →
    frameOf (entryAt s.phys d.directory i) ≠ d.directory ∧
      frameOf (entryAt s.phys d.directory i) ≠ d.table
  directory_used : ¬ Free s.pmm (addrToPage d.directory)
  table_used : ¬ Free s.pmm (addrToPage d.table)

theorem Booted.kept (h : Booted d s) (hdir : ¬ Free s.pmm (addrToPage d.directory))
    (htable : ¬ Free s.pmm (addrToPage d.table)) : Kept d s := by
  refine ⟨h.cr3, h.recursive, h.identity, ?_, ?_, fun i hi h0 h768 hp => ?_, hdir, htable⟩
  · rw [h.entries 0 (by decide), if_neg (by decide), if_pos (Or.inl rfl)]
  · rw [h.entries 768 (by decide), if_neg (by decide), if_pos (Or.inr rfl)]
  · rw [h.entries i (by omega), if_neg (by omega), if_neg (by omega)] at hp
    cases hp

/-- Memory that agrees on the two frames and on the tables of the others. -/
theorem Kept.congr {m : Mem} (h : Kept d s) (pmm : PmmState)
    (hdir : ∀ i < 1024, entryAt m d.directory i = entryAt s.phys d.directory i)
    (htable : ∀ j < 1024, entryAt m d.table j = entryAt s.phys d.table j)
    (hpmm : ∀ i, Free pmm i → Free s.pmm i) : Kept d { s with phys := m, pmm } := by
  refine ⟨h.cr3, ⟨?_, ?_⟩, fun j hj => ?_, ?_, ?_, fun i hi => ?_, fun hf => h.directory_used (hpmm _ hf),
    fun hf => h.table_used (hpmm _ hf)⟩
  · rw [hdir 1023 (by decide)]
    exact h.recursive.present
  · rw [hdir 1023 (by decide)]
    exact h.recursive.frame
  · rw [htable j hj]
    exact h.identity j hj
  · rw [hdir 0 (by decide)]
    exact h.low
  · rw [hdir 768 (by decide)]
    exact h.kernel
  · rw [hdir i (by omega)]
    exact h.apart i hi

/-- An entry in another table. -/
theorem Kept.setEntry (h : Kept d s) {virt e : Nat}
    (hdir : frameOf (dirEntry s.phys d.directory virt) ≠ d.directory)
    (htable : frameOf (dirEntry s.phys d.directory virt) ≠ d.table) :
    Kept d { s with phys := setEntry s.phys d.directory virt e } := by
  refine h.congr s.pmm (fun i hi => ?_) (fun j hj => ?_) fun _ hf => hf
  · exact entryAt_writeEntry_ne (frameOf_aligned _) d.directory_eq.1 (tabIndex_lt virt) hi
      (Or.inl hdir.symm)
  · exact entryAt_writeEntry_ne (frameOf_aligned _) d.table_eq.1 (tabIndex_lt virt) hj
      (Or.inl htable.symm)

/-- A new table. -/
theorem Kept.newTable (h : Kept d s) (flags : Nat) {i frame : Nat} {pmm : PmmState}
    (hi : i < 1023 ∧ i ≠ 0 ∧ i ≠ 768) (hh : Handed s.pmm frame pmm) :
    Kept d { s with phys := PageTables.newTable s.phys d.directory i frame (frame ||| pdFlags flags), pmm } ∧
      frameOf (frame ||| pdFlags flags) = frame ∧ frame ≠ d.directory ∧ frame ≠ d.table ∧
      entryAt (PageTables.newTable s.phys d.directory i frame (frame ||| pdFlags flags)) d.directory i =
        frame ||| pdFlags flags := by
  have he := tableEntry_entry flags hh.aligned (handed_lt hh)
  have hdir := d.directory_eq.1
  have hnedir : frame ≠ d.directory := fun heq => h.directory_used (heq ▸ hh.free)
  have hnetable : frame ≠ d.table := fun heq => h.table_used (heq ▸ hh.free)
  have hentry : ∀ j < 1024,
      entryAt (PageTables.newTable s.phys d.directory i frame (frame ||| pdFlags flags)) d.directory j =
        if j = i then frame ||| pdFlags flags else entryAt s.phys d.directory j := by
    intro j hj
    rw [entryAt_newTable hdir hh.aligned (by omega) he.lt hdir hj hnedir.symm]
    simp only [true_and]
  refine ⟨⟨h.cr3, ⟨?_, ?_⟩, fun j hj => ?_, ?_, ?_, fun j hj h0 h768 => ?_, ?_, ?_⟩, he.frameOf, hnedir,
    hnetable, ?_⟩
  · rw [hentry 1023 (by decide), if_neg (by omega)]
    exact h.recursive.present
  · rw [hentry 1023 (by decide), if_neg (by omega)]
    exact h.recursive.frame
  · rw [← h.identity j hj]
    have hne := d.directory_ne
    have htable := d.table_eq.1
    dsimp only
    rw [PageTables.newTable, entryAt_clear hh.aligned htable hj, if_neg hnetable.symm,
      entryAt_writeEntry_ne hdir htable (by omega) hj (Or.inl hne.symm)]
  · rw [hentry 0 (by decide), if_neg (by omega)]
    exact h.low
  · rw [hentry 768 (by decide), if_neg (by omega)]
    exact h.kernel
  · rw [hentry j (by omega)]
    split
    · intro _
      rw [he.frameOf]
      exact ⟨hnedir, hnetable⟩
    · exact h.apart j hj h0 h768
  · exact fun hf => h.directory_used (hh.fewer _ hf)
  · exact fun hf => h.table_used (hh.fewer _ hf)
  · rw [hentry i (by omega), if_pos rfl]

/-- **One step.** -/
theorem kept_step {s' : Machine} {u : Unit} (h : Kept d s) (hstep : MapStep s u s') : Kept d s' := by
  cases hstep with
  | @map s' phys virt flags hvirt hindex hmap =>
    have hlt := dirIndex_lt virt
    rw [mapPage_eq phys flags (h.cr3 ▸ h.recursive) (by omega) hvirt (h.cr3 ▸ h.directory_used)] at hmap
    obtain ⟨⟨m, pmm⟩, hat, rfl⟩ := Option.map_eq_some_iff.mp hmap
    dsimp only
    rw [h.cr3] at hat
    rcases mapAt_cases hat with ⟨hp, rfl, rfl⟩ | ⟨-, frame, halloc, rfl⟩
    · obtain ⟨hdir, htable⟩ := h.apart _ (by omega) hindex.1 hindex.2.1 hp
      exact h.setEntry hdir htable
    · obtain ⟨hkept, hframe, hnedir, hnetable, hentry⟩ := h.newTable flags
        ⟨by omega, hindex.1, hindex.2.1⟩ (pmmAllocFrame_handed halloc)
      refine hkept.setEntry ?_ ?_
      · rw [dirEntry, hentry, hframe]
        exact hnedir
      · rw [dirEntry, hentry, hframe]
        exact hnetable
  | alloc halloc =>
    have hh := pmmAllocFrame_handed halloc
    exact h.congr _ (fun _ _ => rfl) (fun _ _ => rfl) fun i hf => hh.fewer i hf
  | @store a b hother =>
    have hdir := hother 1023 (by decide) (h.cr3 ▸ h.recursive.present)
    have htable := hother 0 (by decide) (by rw [h.cr3, h.low]; exact d.entry.present)
    rw [h.cr3, h.recursive.frame] at hdir
    rw [h.cr3, h.low, d.entry.frameOf] at htable
    have hdir0 := d.directory_eq.1
    have htable0 := d.table_eq.1
    simp only [frameOf] at hdir htable
    refine h.congr s.pmm (fun i hi => ?_) (fun j hj => ?_) fun _ hf => hf
    · exact readN_congr fun x hlo hhi => write8_ne _ _ (by omega)
    · exact readN_congr fun x hlo hhi => write8_ne _ _ (by omega)

/-- `remove_identity_map` clears the first entry of the directory. -/
theorem removeIdentityMap_eq (h : Kept d s) :
    removeIdentityMap s = some { s with phys := writeEntry s.phys d.directory 0 0 } := by
  have hstore := store32_dir (s := s) (h.cr3 ▸ h.recursive) (i := 0) (v := 0) (by decide)
  have hfirst : PAGE_DIR_VIRT + 4 * 0 = PAGE_DIR_VIRT := rfl
  rw [removeIdentityMap, ← hfirst, hstore, h.cr3]

/-- Addresses behind the first 4 MiB, but for the window on their table. -/
theorem lookup_removed (h : Kept d s) (virt : Nat) (h0 : dirIndex virt ≠ 0)
    (hwindow : dirIndex virt = 1023 → tabIndex virt ≠ 0) :
    lookup (writeEntry s.phys d.directory 0 0) d.directory virt = lookup s.phys d.directory virt := by
  have hdir := d.directory_eq.1
  have hentry : dirEntry (writeEntry s.phys d.directory 0 0) d.directory virt =
      dirEntry s.phys d.directory virt :=
    entryAt_writeEntry_ne hdir hdir (by decide) (dirIndex_lt virt) (Or.inr h0)
  rw [lookup, lookup, hentry]
  by_cases hp : present (dirEntry s.phys d.directory virt) = true
  · rw [if_pos hp, if_pos hp]
    refine entryAt_writeEntry_ne hdir (frameOf_aligned _) (by decide) (tabIndex_lt virt) ?_
    by_cases h1023 : dirIndex virt = 1023
    · exact Or.inr (hwindow h1023)
    · by_cases h768 : dirIndex virt = 768
      · rw [dirEntry, h768, h.kernel, d.entry.frameOf]
        exact Or.inl d.directory_ne.symm
      · have hlt := dirIndex_lt virt
        exact Or.inl (h.apart _ (by omega) h0 h768 hp).1
  · rw [if_neg hp, if_neg hp]

theorem Kept.removed (h : Kept d s) : ∃ s', removeIdentityMap s = some s' ∧
    (∀ virt < 0x400000, translate s'.phys s'.cr3 virt = none) ∧
    (∀ virt, KERNEL_OFFSET ≤ virt → virt < KERNEL_OFFSET + 0x400000 →
      translate s'.phys s'.cr3 virt = some (virt - KERNEL_OFFSET)) ∧
    ∀ virt < 2 ^ 32, 0x400000 ≤ virt → ¬ (RECURSIVE_BASE ≤ virt ∧ virt < RECURSIVE_BASE + 4096) →
      translate s'.phys s'.cr3 virt = translate s.phys s.cr3 virt := by
  have hdir := d.directory_eq.1
  refine ⟨_, removeIdentityMap_eq h, fun virt hvirt => ?_, fun virt hlo hhi => ?_,
    fun virt hvirt hlo hwindow => ?_⟩
  · have h0 : dirIndex virt = 0 := by
      simp only [dirIndex]
      omega
    dsimp only
    rw [h.cr3, translate_absent_dir]
    rw [dirEntry, h0, entryAt_writeEntry_self (by decide), present_zero]
  · have h768 : dirIndex virt = 768 := by
      simp only [dirIndex, KERNEL_OFFSET] at *
      omega
    have hlookup := lookup_removed h virt (by omega) (by omega)
    have hentry : Entry (dirEntry s.phys d.directory virt) d.table 3 := by
      rw [dirEntry, h768, h.kernel]
      exact d.entry
    dsimp only
    rw [h.cr3, PageTables.translate, hlookup, ← PageTables.translate,
      translate_identity h.identity hentry]
    refine congrArg some ?_
    simp only [KERNEL_OFFSET] at *
    omega
  · have h0 : dirIndex virt ≠ 0 := by
      simp only [dirIndex]
      omega
    have htab : dirIndex virt = 1023 → tabIndex virt ≠ 0 := by
      simp only [dirIndex, tabIndex, RECURSIVE_BASE] at *
      omega
    dsimp only
    rw [h.cr3, PageTables.translate, lookup_removed h virt h0 htab, PageTables.translate]

end

/-- **The kernel without the first mapping.**  From `_start` on, whatever `map_page` has mapped
before `remove_identity_map`: nothing of the first 4 MiB is mapped any more, the kernel is where
it was, and so is everything else but the window on the table of the first mapping. -/
theorem identity_removed (b : BootInfo) (d : BootData b.kernel) {m m' : Mem} {mem : Bitmap}
    {s : PmmInit.Booted} {cr3 : Nat} {s₀ s₁ : Machine} {es : List Unit}
    (hzero : ∀ i < 1024, entryAt m d.directory i = 0) (hmem : b.kernel.physEnd ≤ b.pages * PAGE_SIZE)
    (hstart : start d 1024 m = some (m', cr3)) (hboot : boot b.kernel b.tags mem = some s)
    (hpaging : pagingInit d ⟨m', s.pmm, cr3⟩ = some s₀) (hrun : Run MapStep s₀ es s₁) :
    ∃ s₂, removeIdentityMap s₁ = some s₂ ∧
      (∀ virt < 0x400000, translate s₂.phys s₂.cr3 virt = none) ∧
      (∀ virt, KERNEL_OFFSET ≤ virt → virt < KERNEL_OFFSET + 0x400000 →
        translate s₂.phys s₂.cr3 virt = some (virt - KERNEL_OFFSET)) ∧
      ∀ virt < 2 ^ 32, 0x400000 ≤ virt → ¬ (RECURSIVE_BASE ≤ virt ∧ virt < RECURSIVE_BASE + 4096) →
        translate s₂.phys s₂.cr3 virt = translate s₁.phys s₁.cr3 virt := by
  obtain ⟨hbooted, hdir, htable⟩ := booted_of_start b d hzero hmem hstart hboot hpaging
  have hkept : Kept d s₀ := hbooted.kept hdir htable
  exact (hrun.invariant (fun _ _ _ h hstep => kept_step h hstep) hkept).removed

/-- The tables in the data of the kernel of `ramdiskBoot`. -/
def ramdiskData : BootData ramdiskBoot.kernel where
  pageDirectory := 0xc0204000
  pageTableLow := 0xc0205000
  directory_ge := by decide
  directory_le := by decide
  table_ge := by decide
  table_le := by decide
  directory_aligned := by decide
  table_aligned := by decide
  ne := by decide

theorem zero_entry (t i : Nat) : entryAt (fun _ => 0) t i = 0 := rfl

theorem ramdisk_tables : ∃ s m' cr3 s', boot ramdiskBoot.kernel ramdiskBoot.tags (fun _ => 0) = some s ∧
    start ramdiskData 1024 (fun _ => 0) = some (m', cr3) ∧
    pagingInit ramdiskData ⟨m', s.pmm, cr3⟩ = some s' ∧ BootTables s' ∧
    ∀ virt < 2 ^ 32, translate s'.phys s'.cr3 virt = bootMap ramdiskData virt :=
  boot_tables ramdiskBoot ramdiskData (fun i _ => zero_entry _ i) (by decide) fun _ => 0

/-- A byte behind the kernel is stored in between. -/
theorem ramdisk_removed : ∃ s₁ s₂, removeIdentityMap s₁ = some s₂ ∧
    translate s₂.phys s₂.cr3 0x200000 = none ∧
    translate s₂.phys s₂.cr3 0xc0200000 = some 0x200000 := by
  have hzero : ∀ i < 1024, entryAt (fun _ => 0) ramdiskData.directory i = 0 := fun i _ => zero_entry _ i
  obtain ⟨s, hboot, -, -⟩ := boot_some ramdiskBoot fun _ => 0
  obtain ⟨m', hstart, hidentity, hentries⟩ := start_tables (d := ramdiskData) hzero
  obtain ⟨s₀, hpaging, -, hbooted⟩ := pagingInit_booted s.pmm hidentity hentries
  have hstore : MapStep s₀ () { s₀ with phys := write8 s₀.phys 0x300000 (0x41 : BitVec 8).toNat } := by
    refine .store 0x41 fun i hi hp => ?_
    rw [hbooted.cr3, hbooted.entries i hi] at hp ⊢
    split_ifs at hp ⊢
    · decide
    · decide
    · cases hp
  obtain ⟨s₂, hremove, hlow, hkernel, -⟩ := identity_removed ramdiskBoot ramdiskData hzero (by decide)
    hstart hboot hpaging (.single hstore)
  exact ⟨_, s₂, hremove, hlow _ (by decide), hkernel _ (by decide) (by decide)⟩

end FrogKernel.BootPaging
