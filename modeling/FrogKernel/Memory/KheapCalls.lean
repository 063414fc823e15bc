import FrogKernel.Memory.KheapGrowth
import Mathlib.Data.Set.Insert

/-!
# What calls of the heap leave behind (`memory/kheap.c`)

`liveBlocks` are the allocations that the list of the heap shows.  `HeapHolds` says which
they are, and `kmalloc` and `kfree` add one and take one away.
-/

namespace FrogKernel.Kheap

open FrogKernel.Bytes FrogKernel.Runs FrogKernel.Pmm FrogKernel.Paging

variable {π : Type*} {newPage : π → Nat → Option π} {h h' : KHeap π} {live : List Alloc}

/-- The heap gets no page of the area of `kalloc_pages`. -/
def heapPage (newPage : π → Nat → Option π) (s : π) (virt : Nat) : Option π :=
  if virt + PAGE_SIZE ≤ LARGE_ALLOC_BASE then newPage s virt else none

/-- The blocks of the list that are not free. -/
def liveBlocks (h : KHeap π) : Set Alloc :=
  {a | ∃ b, OnList h b ∧ (loadBlock h.mem b).free = 0 ∧
    a = ⟨(loadBlock h.mem b).addr, (loadBlock h.mem b).size⟩}

structure HeapHolds (h : KHeap π) (live : List Alloc) : Prop where
  room : h.kheapEnd ≤ LARGE_ALLOC_BASE
  blocks : ∃ spans, HeapInv h spans ∧ Owned spans live

/-- A heap that was only used through its calls. -/
theorem HeapHolds.of_run {mem : Mem} {pages : π} {h₀ : KHeap π} {es : List HeapEvent}
    (hinit : kheapInit newPage mem pages = some h₀)
    (hrun : Run (Guarded (fun s _ => s.1.kheapEnd ≤ LARGE_ALLOC_BASE) (HeapStep newPage))
      (h₀, []) es (h, live)) (hroom : h.kheapEnd ≤ LARGE_ALLOC_BASE) : HeapHolds h live :=
  ⟨hroom, reachable_inv hinit hrun⟩

/-- The list shows what is live. -/
theorem HeapHolds.liveBlocks_eq (hh : HeapHolds h live) : liveBlocks h = {a | a ∈ live} := by
  obtain ⟨spans, hinv, howned⟩ := hh.blocks
  ext a
  simp only [liveBlocks, Set.mem_ofPred_eq, howned.mem_iff, onList_iff hinv]
  constructor
  · rintro ⟨b, ⟨s, hs, rfl⟩, hfree, rfl⟩
    have hold := hinv.rep.holds s hs
    rw [hold.free] at hfree
    refine List.mem_map.mpr ⟨s, ?_, ?_⟩
    · simp only [used, List.mem_filter]
      cases hsfree : s.free with
      | true => simp [hsfree] at hfree
      | false => exact ⟨hs, rfl⟩
    · rw [Span.alloc, hold.addr, hold.size]
  · intro ha
    obtain ⟨s, hs, rfl⟩ := List.mem_map.mp ha
    simp only [used, List.mem_filter, Bool.not_eq_true'] at hs
    have hold := hinv.rep.holds s hs.1
    refine ⟨s.hdr, ⟨s, hs.1, rfl⟩, ?_, ?_⟩
    · rw [hold.free, hs.2]
      rfl
    · rw [Span.alloc, hold.addr, hold.size]

theorem HeapHolds.nodup (hh : HeapHolds h live) : live.Nodup := by
  obtain ⟨spans, hinv, howned⟩ := hh.blocks
  refine howned.nodup_iff.mpr (List.pairwise_map.mpr ?_)
  refine (hinv.layout.sorted.sublist List.filter_sublist).imp fun {s t} hst heq => ?_
  -- the one starts behind the other
  have hptr : s.hdr + HEADER = t.hdr + HEADER := congrArg Alloc.ptr heq
  simp only [Span.stop, HEADER] at hst hptr
  omega

theorem HeapHolds.ptr_pos (hh : HeapHolds h live) {a : Alloc} (ha : a ∈ live) : 0 < a.ptr := by
  obtain ⟨spans, -, howned⟩ := hh.blocks
  obtain ⟨s, -, rfl⟩ := List.mem_map.mp (howned.mem_iff.mp ha)
  exact Nat.add_pos_right _ (by decide)

/-! ## `kmalloc` and `kfree` -/

theorem HeapHolds.grow (hh : HeapHolds h live) {size : Nat} (hsearch : searchBlock h size = some 0)
    (hgrow : growHeap (heapPage newPage) h = some h') : HeapHolds h' live := by
  obtain ⟨spans, hinv, howned⟩ := hh.blocks
  obtain ⟨pages, tail, hpage, -, hh'⟩ := growHeap_some hgrow
  have hroom : h.kheapEnd + PAGE_SIZE ≤ LARGE_ALLOC_BASE := by
    by_contra hno
    rw [heapPage, if_neg hno] at hpage
    cases hpage
  have hlt : h.kheapEnd + PAGE_SIZE < 2 ^ 32 := Nat.lt_of_le_of_lt hroom (by decide)
  obtain ⟨spans', hinv', howned', -⟩ := heapStep_inv (.grow hsearch hgrow) hlt hinv howned
  refine ⟨?_, spans', hinv', howned'⟩
  rw [hh']
  exact (Nat.mod_le _ _).trans hroom

/-- `kmalloc` adds what it returns. -/
theorem HeapHolds.kmalloc {size p : Nat} {n : Nat} (hh : HeapHolds h live)
    (hcall : kmalloc (heapPage newPage) n h size = some (p, h')) :
    HeapHolds h' (⟨p, size⟩ :: live) := by
  induction n generalizing h with
  | zero => cases hcall
  | succ n ih =>
    rw [Kheap.kmalloc] at hcall
    obtain ⟨curr, hsearch, hrest⟩ := Option.bind_eq_some_iff.mp hcall
    by_cases hcurr : curr = 0
    · subst hcurr
      rw [if_neg (not_not.mpr rfl)] at hrest
      obtain ⟨h1, hgrow, hcall'⟩ := Option.bind_eq_some_iff.mp hrest
      exact ih (hh.grow hsearch hgrow) hcall'
    · rw [if_pos hcurr] at hrest
      obtain ⟨spans, hinv, howned⟩ := hh.blocks
      have hlt : h.kheapEnd + 0 < 2 ^ 32 := Nat.lt_of_le_of_lt hh.room (by decide)
      obtain ⟨spans', hinv', howned', -⟩ :=
        heapStep_inv (show HeapStep newPage _ _ _ from .kmalloc hsearch hcurr hrest) hlt hinv howned
      exact ⟨(takeBlock_bounds hrest).end_ ▸ hh.room, spans', hinv', howned'⟩

/-- `kfree` takes away what it is given. -/
theorem HeapHolds.kfree {a : Alloc} (hh : HeapHolds h live) (ha : a ∈ live) :
    HeapHolds (kfree h a.ptr) (live.erase a) := by
  obtain ⟨spans, hinv, howned⟩ := hh.blocks
  have hlt : h.kheapEnd + 0 < 2 ^ 32 := Nat.lt_of_le_of_lt hh.room (by decide)
  obtain ⟨spans', hinv', howned', -⟩ :=
    heapStep_inv (show HeapStep (fun s _ => some s) _ _ _ from .kfree ha) hlt hinv howned
  exact ⟨(kfree_bounds h a.ptr).end_ ▸ hh.room, spans', hinv', howned'⟩

/-- What an allocation adds was not live before. -/
theorem HeapHolds.fresh {a : Alloc} (hh : HeapHolds h (a :: live)) : a ∉ live :=
  (List.nodup_cons.mp hh.nodup).1

/-! ## The pages of a call -/

/-- What every new page keeps is kept. -/
theorem kmalloc_pages {P : π → Prop} {size p n : Nat}
    (hpage : ∀ s virt s', newPage s virt = some s' → P s → P s') (hP : P h.pages)
    (hcall : kmalloc newPage n h size = some (p, h')) : P h'.pages := by
  induction n generalizing h with
  | zero => cases hcall
  | succ n ih =>
    rw [Kheap.kmalloc] at hcall
    obtain ⟨curr, -, hrest⟩ := Option.bind_eq_some_iff.mp hcall
    split at hrest
    · rw [(takeBlock_bounds hrest).pages]
      exact hP
    · obtain ⟨h1, hgrow, hcall'⟩ := Option.bind_eq_some_iff.mp hrest
      obtain ⟨pages, tail, hnew, -, rfl⟩ := growHeap_some hgrow
      exact ih (hpage _ _ _ hnew hP) hcall'

/-- A call that finds a block takes no page, and any other takes one first. -/
theorem HeapHolds.kmalloc_first {size p n : Nat} (hh : HeapHolds h live)
    (hcall : Kheap.kmalloc newPage n h size = some (p, h')) :
    ((∃ b, Fits h size b) ∧ h'.pages = h.pages) ∨
    ((¬ ∃ b, Fits h size b) ∧ ∃ s m h1, newPage h.pages h.kheapEnd = some s ∧ h1.pages = s ∧
      Kheap.kmalloc newPage m h1 size = some (p, h')) := by
  obtain ⟨spans, hinv, -⟩ := hh.blocks
  have hend : h.kheapEnd ≤ 2 ^ 32 := hh.room.trans (by decide)
  cases n with
  | zero => cases hcall
  | succ n =>
    rw [Kheap.kmalloc] at hcall
    obtain ⟨curr, hsearch, hrest⟩ := Option.bind_eq_some_iff.mp hcall
    by_cases hcurr : curr = 0
    · subst hcurr
      have hnone : ¬ ∃ b, Fits h size b := by
        rintro ⟨b, hb, hfree, hsize⟩
        exact absurd hsize (Nat.not_le_of_lt (hinv.none_fits hend hsearch hb hfree))
      rw [if_neg (not_not.mpr rfl)] at hrest
      obtain ⟨h1, hgrow, hcall'⟩ := Option.bind_eq_some_iff.mp hrest
      obtain ⟨pages, tail, hnew, -, rfl⟩ := growHeap_some hgrow
      exact Or.inr ⟨hnone, pages, n, _, hnew, rfl, hcall'⟩
    · rw [if_pos hcurr] at hrest
      refine Or.inl ⟨?_, (takeBlock_bounds hrest).pages⟩
      by_contra hnone
      rw [search_none hinv hend hnone] at hsearch
      exact hcurr (Option.some.inj hsearch).symm

end FrogKernel.Kheap
