import FrogKernel.Memory.KernelAreas
import FrogKernel.Memory.KheapTiling

/-!
# Growing the kernel heap (`memory/kheap.c`)

`kmalloc` adds a page when no block fits, and calls itself.  The page becomes a block
of its own, it is not merged with the block before it: a request that is larger
than the block of a page never finds one, however many pages are added.

Main result: `kmalloc_served_iff`.
-/

namespace FrogKernel.Kheap

open FrogKernel.Bytes FrogKernel.PageTables FrogKernel.DList FrogKernel.Pmm FrogKernel.Paging
  FrogKernel.Runs FrogKernel.KernelAreas

variable {π : Type*}

/-- The pages that a block of `size` bytes takes with its header. -/
def pagesFor (size : Nat) : Nat := (size + HEADER + PAGE_SIZE - 1) / PAGE_SIZE

/-- `ptr` points to a used block of at least `size` bytes. -/
structure BlockAt (h : KHeap π) (ptr size : Nat) : Prop where
  header : OnList h (ptr - HEADER)
  addr : (loadBlock h.mem (ptr - HEADER)).addr = ptr
  large : size ≤ (loadBlock h.mem (ptr - HEADER)).size
  used : (loadBlock h.mem (ptr - HEADER)).free = 0
  inside : ptr + size ≤ h.kheapEnd

/-- `kmalloc` returns a block after at most `pagesFor size` pages: it calls itself
at most once for each of them. -/
def Served (newPage : π → Nat → Option π) (h : KHeap π) (size : Nat) : Prop :=
  ∃ ptr h', kmalloc newPage (pagesFor size + 1) h size = some (ptr, h') ∧
    h'.kheapEnd ≤ h.kheapEnd + pagesFor size * PAGE_SIZE ∧ BlockAt h' ptr size

section Heap

variable {newPage : π → Nat → Option π} {h : KHeap π} {spans : List Span} {size : Nat}

theorem fits_iff (hinv : HeapInv h spans) :
    (∃ b, Fits h size b) ↔ ∃ s ∈ spans, s.free = true ∧ size ≤ s.size := by
  constructor
  · rintro ⟨b, hb, hfree, hsize⟩
    obtain ⟨s, hs, rfl⟩ := onList_hdr hinv hb
    have hhold := hinv.rep.holds s hs
    exact ⟨s, hs, hhold.free_iff.mp hfree, hhold.size ▸ hsize⟩
  · rintro ⟨s, hs, hfree, hsize⟩
    have hhold := hinv.rep.holds s hs
    exact ⟨s.hdr, onList_of_mem hinv hs, hhold.free_iff.mpr hfree, hhold.size ▸ hsize⟩

theorem search_none (hinv : HeapInv h spans) (hend : h.kheapEnd ≤ 2 ^ 32)
    (hnone : ¬ ∃ b, Fits h size b) : searchBlock h size = some 0 := by
  rw [fits_iff hinv] at hnone
  rw [searchBlock_eq hinv hend, firstHdr_of_none]
  intro s hs
  by_contra hfit
  exact hnone ⟨s, hs, by simpa using hfit⟩

variable (newPage) in
/-- A block that fits is taken at once. -/
theorem kmalloc_fits (hinv : HeapInv h spans) (hend : h.kheapEnd ≤ 2 ^ 32)
    (hfits : ∃ b, Fits h size b) (n : Nat) :
    ∃ ptr h', kmalloc newPage (n + 1) h size = some (ptr, h') ∧
      h'.kheapEnd = h.kheapEnd ∧ BlockAt h' ptr size := by
  obtain ⟨t, ht, htfree, htsize⟩ := (fits_iff hinv).mp hfits
  have hsearch := searchBlock_eq hinv hend size
  cases hfind : spans.find? (fun s => s.free && decide (size ≤ s.size)) with
  | none =>
    have hno := List.find?_eq_none.mp hfind t ht
    simp [htfree, htsize] at hno
  | some s =>
    obtain ⟨hfit, xs, ys, rfl, -⟩ := List.find?_eq_some_iff_append.mp hfind
    obtain ⟨hfree, hsize⟩ : s.free = true ∧ size ≤ s.size := by simpa using hfit
    obtain ⟨h', htake, hinv'⟩ := takeBlock_inv hinv hend hfree hsize
    have hpos := hinv.hdr_pos (s := s) (by simp)
    have hbounds := takeBlock_bounds htake
    rw [firstHdr, hfind] at hsearch
    have hcall : kmalloc newPage (n + 1) h size = some (s.hdr + HEADER, h') := by
      rw [kmalloc, hsearch, Option.bind_some]
      simp only [Option.map_some, Option.getD_some]
      rw [if_pos (by omega), htake]
    obtain ⟨rest, hrest, -⟩ := takeSpans_cons s size
    have hmem : (⟨s.hdr, size, false⟩ : Span) ∈ xs ++ (takeSpans s size ++ ys) := by
      rw [hrest]
      simp
    have hhold := hinv'.rep.holds _ hmem
    have hin := hinv'.layout.inside _ hmem
    refine ⟨_, h', hcall, hbounds.end_, ?_⟩
    have hsub : s.hdr + HEADER - HEADER = s.hdr := Nat.add_sub_cancel _ _
    refine ⟨?_, ?_, ?_, ?_, hin.2⟩ <;> rw [hsub]
    · exact onList_of_mem (s := ⟨s.hdr, size, false⟩) hinv' hmem
    · exact hhold.addr
    · exact hhold.size.ge
    · exact hhold.free

/-- A request that fits into the block of a page takes one page at most. -/
theorem kmalloc_grows (hinv : HeapInv h spans) (hend : h.kheapEnd + PAGE_SIZE < 2 ^ 32)
    (hsize : size ≤ PAGE_SIZE - HEADER) (hnone : ¬ ∃ b, Fits h size b) {pages : π}
    (hpage : newPage h.pages h.kheapEnd = some pages) (n : Nat) :
    ∃ ptr h', kmalloc newPage (n + 2) h size = some (ptr, h') ∧
      h'.kheapEnd = h.kheapEnd + PAGE_SIZE ∧ BlockAt h' ptr size := by
  obtain ⟨h1, hgrow, hend1⟩ := growHeap_ends hinv hend hpage
  have hinv1 := growHeap_inv hinv hend hgrow
  have hfits : ∃ b, Fits h1 size b :=
    (fits_iff hinv1).mpr ⟨pageSpan h.kheapEnd, by simp, rfl, hsize⟩
  obtain ⟨ptr, h', hcall, hend', hblock⟩ := kmalloc_fits newPage hinv1 (by omega) hfits n
  refine ⟨ptr, h', ?_, hend'.trans hend1, hblock⟩
  rw [kmalloc, search_none hinv (by omega) hnone, Option.bind_some, if_neg (not_not.mpr rfl), hgrow,
    Option.bind_some]
  exact hcall

/-- A larger request is not served by any number of pages: no new block fits either. -/
theorem kmalloc_stuck (hinv : HeapInv h spans) {n : Nat}
    (hend : h.kheapEnd + n * PAGE_SIZE ≤ LARGE_ALLOC_BASE) (hsize : PAGE_SIZE - HEADER < size)
    (hnone : ¬ ∃ b, Fits h size b) : kmalloc newPage (n + 1) h size = none := by
  simp only [PAGE_SIZE, LARGE_ALLOC_BASE] at hend
  induction n generalizing h spans with
  | zero =>
    rw [kmalloc, search_none hinv (by omega) hnone, Option.bind_some, if_neg (not_not.mpr rfl)]
    cases growHeap newPage h <;> rfl
  | succ n ih =>
    rw [kmalloc, search_none hinv (by omega) hnone, Option.bind_some, if_neg (not_not.mpr rfl)]
    cases hgrow : growHeap newPage h with
    | none => rfl
    | some h1 =>
      have hinv1 := growHeap_inv hinv (by simp only [PAGE_SIZE]; omega) hgrow
      have hend1 : h1.kheapEnd = h.kheapEnd + 4096 := by
        obtain ⟨_, _, -, -, rfl⟩ := growHeap_some hgrow
        exact add32_eq (by simp only [PAGE_SIZE]; omega)
      refine ih hinv1 (by omega) ?_
      rw [fits_iff hinv1]
      rintro ⟨s, hs, hfree, hfit⟩
      rcases List.mem_append.mp hs with hs | hs
      · exact hnone ((fits_iff hinv).mpr ⟨s, hs, hfree, hfit⟩)
      · obtain rfl := List.mem_singleton.mp hs
        exact absurd hfit (Nat.not_le.mpr hsize)

end Heap

/-! ## Over runs -/

/-- The heap and the areas over a run. -/
theorem memRun_inv {s t : KernelMem × List Alloc} {es : List MemEvent}
    (hrun : Run (Guarded Room MemStep) s es t) (hareas : AreasInv s.1)
    (hheap : ∃ spans, HeapInv s.1.heap spans ∧ Owned spans s.2) :
    AreasInv t.1 ∧ ∃ spans, HeapInv t.1.heap spans ∧ Owned spans t.2 := by
  refine hrun.invariant
    (I := fun s => AreasInv s.1 ∧ ∃ spans, HeapInv s.1.heap spans ∧ Owned spans s.2) ?_ ⟨hareas, hheap⟩
  rintro ⟨s, live⟩ e ⟨s', live'⟩ ⟨hareas, spans, hinv, howned⟩ ⟨hroom, hstep⟩
  refine ⟨areas_step hareas hroom hstep, ?_⟩
  have hend := hareas.heapEnd
  cases hstep with
  | @heap _ _ _ e h' hheap =>
    have hwrap : s.heap.kheapEnd + e.gain < 2 ^ 32 := by
      have hgain := e.gain_le
      simp only [LARGE_ALLOC_BASE, PAGE_SIZE] at hend hgain
      omega
    obtain ⟨spans', hinv', howned', -⟩ := heapStep_inv hheap hwrap hinv howned
    exact ⟨spans', hinv', howned'⟩
  | page hcall =>
    obtain ⟨pages, -, rfl⟩ := Option.map_eq_some_iff.mp hcall
    exact ⟨spans, ⟨hinv.rep, hinv.layout, hinv.nonempty, hinv.start, hinv.head, hinv.freeHead⟩, howned⟩

/-- **Serving a request.**  In every state reached, with enough frames and enough room
for the heap, `kmalloc` returns a block after the pages that the request takes exactly
when the request fits into the block of one page or a block of the list fits it. -/
theorem kmalloc_served_iff {m : Machine} {mem : Mem} {h₀ : KHeap Machine} {s : KernelMem}
    {live : List Alloc} {es : List MemEvent} {size : Nat} (hboot : BootTables m)
    (hinit : kheapInit newKernelPage mem m = some h₀)
    (hrun : Run (Guarded Room MemStep) (⟨h₀, LARGE_ALLOC_BASE⟩, []) es (s, live))
    (hframes : Spare (pagesFor size + 2) s.tables.pmm)
    (hroom : s.heap.kheapEnd + pagesFor size * PAGE_SIZE ≤ LARGE_ALLOC_BASE) :
    Served newKernelPage s.heap size ↔ size ≤ PAGE_SIZE - HEADER ∨ ∃ b, Fits s.heap size b := by
  obtain ⟨hareas, spans, hinv, -⟩ := memRun_inv hrun (kheapInit_areas hboot hinit)
    ⟨_, kheapInit_inv hinit, List.Perm.refl []⟩
  dsimp only at hareas hinv
  have hpages : 1 ≤ pagesFor size := by
    simp only [pagesFor, HEADER, PAGE_SIZE]
    omega
  have hend : s.heap.kheapEnd + 4096 ≤ LARGE_ALLOC_BASE := by
    simp only [PAGE_SIZE] at hroom
    omega
  simp only [LARGE_ALLOC_BASE] at hend
  by_cases hfits : ∃ b, Fits s.heap size b
  · refine iff_of_true ?_ (Or.inr hfits)
    obtain ⟨ptr, h', hcall, hend', hblock⟩ := kmalloc_fits newKernelPage hinv (by omega)
      hfits (pagesFor size)
    exact ⟨ptr, h', hcall, by omega, hblock⟩
  · by_cases hsize : size ≤ PAGE_SIZE - HEADER
    · refine iff_of_true ?_ (Or.inl hsize)
      have harea : InAreas s.heap.kheapEnd :=
        ⟨hareas.heapStart, by simp only [RECURSIVE_BASE]; omega⟩
      obtain ⟨pages, hpage, -⟩ := hareas.own.page (n := 0) harea (hframes.mono (by omega))
      obtain ⟨n, hn⟩ : ∃ n, pagesFor size = n + 1 := ⟨pagesFor size - 1, by omega⟩
      obtain ⟨ptr, h', hcall, hend', hblock⟩ := kmalloc_grows hinv (by simp only [PAGE_SIZE]; omega)
        hsize hfits hpage n
      refine ⟨ptr, h', by rw [hn]; exact hcall, ?_, hblock⟩
      rw [hend', hn, Nat.succ_mul]
      omega
    · refine iff_of_false ?_ (not_or.mpr ⟨hsize, hfits⟩)
      rintro ⟨ptr, h', hcall, -⟩
      rw [kmalloc_stuck hinv hroom (Nat.lt_of_not_le hsize) hfits] at hcall
      cases hcall

theorem kheapInit_end {newPage : π → Nat → Option π} {mem : Mem} {pages : π} {h : KHeap π}
    (hinit : kheapInit newPage mem pages = some h) :
    h.kheapEnd = KHEAP_VIRT_START + KHEAP_INITIAL_SIZE := by
  obtain ⟨_, -, rfl⟩ := Option.map_eq_some_iff.mp hinit
  rfl

theorem smallRequest_served : ∃ h, kheapInit newKernelPage (fun _ => 0) bootMachine = some h ∧
    Served newKernelPage h 100 := by
  obtain ⟨h, hinit, -, hspare⟩ := bootMachine_init
  have hend : h.kheapEnd = KHEAP_VIRT_START + KHEAP_INITIAL_SIZE := kheapInit_end hinit
  refine ⟨h, hinit, (kmalloc_served_iff bootMachine_tables hinit (.refl _) ?_ ?_).mpr
    (Or.inl (by decide))⟩
  · exact hspare.mono (by decide)
  · rw [hend]
    decide

/-- The largest block after `kheap_init` is 20 bytes short of 4 MiB. -/
theorem fourMegabytes_stuck : ∃ h, kheapInit newKernelPage (fun _ => 0) bootMachine = some h ∧
    Spare (pagesFor 0x400000 + 2) h.pages.pmm ∧
    h.kheapEnd + pagesFor 0x400000 * PAGE_SIZE ≤ LARGE_ALLOC_BASE ∧
    ¬ Served newKernelPage h 0x400000 := by
  obtain ⟨h, hinit, -, hspare⟩ := bootMachine_init
  have hend : h.kheapEnd = KHEAP_VIRT_START + KHEAP_INITIAL_SIZE := kheapInit_end hinit
  have hroom : h.kheapEnd + pagesFor 0x400000 * PAGE_SIZE ≤ LARGE_ALLOC_BASE := by
    rw [hend]
    decide
  have hinv := kheapInit_inv hinit
  have hnone : ¬ ∃ b, Fits h 0x400000 b := by
    rw [fits_iff hinv]
    decide
  refine ⟨h, hinit, hspare.mono (by decide), hroom, ?_⟩
  rintro ⟨ptr, h', hcall, -⟩
  rw [kmalloc_stuck hinv hroom (by decide) hnone] at hcall
  cases hcall

end FrogKernel.Kheap
