import Mathlib.Data.List.Induction
import FrogKernel.Memory.KheapRuns

/-!
# The order of the block list

`Ordered h` is what the loops of `kmalloc` rely on: the list from `head` goes
up in memory, its links are inverse to each other, and `free_head` is the first
free block.  With it a search that starts at `free_head` misses no block.

Main result: `list_ordered`.
-/

namespace FrogKernel.Kheap

open FrogKernel.Bytes FrogKernel.DList FrogKernel.Pmm FrogKernel.Runs

variable {π : Type*}

/-- Every block of the invariant is reached from `head`. -/
theorem onList_of_mem {h : KHeap π} {spans : List Span} (hinv : HeapInv h spans) {s : Span}
    (hs : s ∈ spans) : OnList h s.hdr := by
  obtain ⟨xs, ys, rfl⟩ := List.append_of_mem hs
  clear hs
  induction xs using List.reverseRecOn generalizing s ys with
  | nil =>
    have hhead : h.head = s.hdr := hinv.head
    have hpos := hinv.hdr_pos (s := s) (by simp)
    rw [← hhead]
    exact .head (by omega)
  | append_singleton xs a ih =>
    rw [List.append_assoc, List.singleton_append] at hinv
    have ha := ih (s :: ys) hinv
    have hnext : (loadBlock h.mem a.hdr).next = s.hdr := by simpa using hinv.rep.next_mid
    have hpos := hinv.hdr_pos (s := s) (by simp)
    rw [← hnext]
    exact .next ha (by omega)

theorem onList_iff {h : KHeap π} {spans : List Span} (hinv : HeapInv h spans) {b : Nat} :
    OnList h b ↔ ∃ s ∈ spans, s.hdr = b := by
  constructor
  · exact onList_hdr hinv
  · rintro ⟨s, hs, rfl⟩
    exact onList_of_mem hinv hs

/-- The list is sorted and doubly linked, and `free_head` is its first free block. -/
structure Ordered (h : KHeap π) : Prop where
  increasing : ∀ b, OnList h b → (loadBlock h.mem b).next ≠ 0 → b < (loadBlock h.mem b).next
  prevHead : (loadBlock h.mem h.head).prev = 0
  prevNext : ∀ b, OnList h b → (loadBlock h.mem b).next ≠ 0 →
    (loadBlock h.mem (loadBlock h.mem b).next).prev = b
  nextPrev : ∀ b, OnList h b → (loadBlock h.mem b).prev ≠ 0 →
    OnList h (loadBlock h.mem b).prev ∧ (loadBlock h.mem (loadBlock h.mem b).prev).next = b
  freeNull : h.freeHead = 0 ↔ ∀ b, OnList h b → (loadBlock h.mem b).free = 0
  freeLeast : h.freeHead ≠ 0 → OnList h h.freeHead ∧ (loadBlock h.mem h.freeHead).free ≠ 0 ∧
    ∀ b, OnList h b → (loadBlock h.mem b).free ≠ 0 → h.freeHead ≤ b

section

variable {h : KHeap π} {spans : List Span} {xs ys : List Span} {s : Span}

theorem HeapInv.increasing (hinv : HeapInv h (xs ++ s :: ys))
    (hne : (loadBlock h.mem s.hdr).next ≠ 0) : s.hdr < (loadBlock h.mem s.hdr).next := by
  rw [hinv.rep.next_mid] at hne ⊢
  rcases headD_hdr ys with ⟨hn, -⟩ | ⟨y, zs, rfl, hn⟩
  · exact absurd hn hne
  · have hle := hinv.layout.around.2 y.hdr (by simp)
    rw [hn]
    simp only [Span.stop, HEADER] at hle
    omega

theorem HeapInv.prevNext (hinv : HeapInv h (xs ++ s :: ys))
    (hne : (loadBlock h.mem s.hdr).next ≠ 0) :
    (loadBlock h.mem (loadBlock h.mem s.hdr).next).prev = s.hdr := by
  rw [hinv.rep.next_mid] at hne ⊢
  rcases headD_hdr ys with ⟨hn, -⟩ | ⟨y, zs, rfl, hn⟩
  · exact absurd hn hne
  · have hassoc : xs ++ s :: y :: zs = (xs ++ [s]) ++ y :: zs := by simp
    have hprev : (loadBlock h.mem y.hdr).prev = ((xs ++ [s]).map Span.hdr).getLastD 0 :=
      (hassoc ▸ hinv.rep).prev_mid
    rw [hn, hprev, List.map_append, List.map_cons, List.map_nil, List.getLastD_concat]

theorem HeapInv.nextPrev (hinv : HeapInv h (xs ++ s :: ys))
    (hne : (loadBlock h.mem s.hdr).prev ≠ 0) :
    OnList h (loadBlock h.mem s.hdr).prev ∧
      (loadBlock h.mem (loadBlock h.mem s.hdr).prev).next = s.hdr := by
  have hprev := hinv.rep.prev_mid
  rcases List.eq_nil_or_concat' xs with rfl | ⟨xs, a, rfl⟩
  · exact absurd hprev hne
  · have ha : (loadBlock h.mem s.hdr).prev = a.hdr := by simpa using hprev
    have hassoc : xs ++ [a] ++ s :: ys = xs ++ a :: s :: ys := by simp
    have hnext : (loadBlock h.mem a.hdr).next = s.hdr := by
      simpa using (hassoc ▸ hinv.rep).next_mid
    rw [ha]
    exact ⟨onList_of_mem hinv (by simp), hnext⟩

theorem HeapInv.freeNull (hinv : HeapInv h spans) :
    h.freeHead = 0 ↔ ∀ s ∈ spans, s.free = false := by
  rw [hinv.freeHead]
  constructor
  · intro hnull
    cases hfind : spans.find? Span.free with
    | none => simpa using hfind
    | some s =>
      have hpos := hinv.hdr_pos (List.mem_of_find?_eq_some hfind)
      rw [firstHdr, hfind] at hnull
      simp only [Option.map_some, Option.getD_some] at hnull
      omega
  · exact firstHdr_of_none

theorem HeapInv.freeLeast (hinv : HeapInv h spans) (hne : h.freeHead ≠ 0) :
    ∃ s ∈ spans, s.hdr = h.freeHead ∧ s.free = true ∧
      ∀ t ∈ spans, t.free = true → s.hdr ≤ t.hdr := by
  rw [hinv.freeHead] at hne ⊢
  cases hfind : spans.find? Span.free with
  | none => rw [firstHdr, hfind] at hne; exact absurd rfl hne
  | some s =>
    obtain ⟨hfree, xs, ys, rfl, hxs⟩ := List.find?_eq_some_iff_append.mp hfind
    refine ⟨s, by simp, by rw [firstHdr, hfind]; rfl, hfree, fun t ht htfree => ?_⟩
    rcases List.mem_append.mp ht with ht | ht
    · exact absurd htfree (by simpa using hxs t ht)
    · rcases List.mem_cons.mp ht with rfl | ht
      · exact Nat.le_refl _
      · have hle := hinv.layout.around.2 t.hdr (mem_hdrs ht)
        simp only [Span.stop] at hle
        omega

end

theorem HeapInv.ordered {h : KHeap π} {spans : List Span} (hinv : HeapInv h spans) : Ordered h := by
  have hsplit : ∀ b, OnList h b → ∃ s xs ys, s.hdr = b ∧ spans = xs ++ s :: ys := by
    intro b hb
    obtain ⟨s, hs, rfl⟩ := onList_hdr hinv hb
    obtain ⟨xs, ys, heq⟩ := List.append_of_mem hs
    exact ⟨s, xs, ys, rfl, heq⟩
  constructor
  · intro b hb hne
    obtain ⟨s, xs, ys, rfl, rfl⟩ := hsplit b hb
    exact hinv.increasing hne
  · obtain ⟨s, ys, rfl⟩ := List.exists_cons_of_ne_nil hinv.nonempty
    have hhead : h.head = s.hdr := hinv.head
    have hrep : Rep h.mem ([] ++ s :: ys) := hinv.rep
    rw [hhead]
    exact hrep.prev_mid
  · intro b hb hne
    obtain ⟨s, xs, ys, rfl, rfl⟩ := hsplit b hb
    exact hinv.prevNext hne
  · intro b hb hne
    obtain ⟨s, xs, ys, rfl, rfl⟩ := hsplit b hb
    exact hinv.nextPrev hne
  · rw [hinv.freeNull]
    constructor
    · intro hall b hb
      obtain ⟨s, hs, rfl⟩ := onList_hdr hinv hb
      rw [(hinv.rep.holds s hs).free, hall s hs]
      rfl
    · intro hall s hs
      have hzero := hall s.hdr (onList_of_mem hinv hs)
      have hiff := (hinv.rep.holds s hs).free_iff
      simpa [hzero] using hiff
  · intro hne
    obtain ⟨s, hs, heq, hfree, hleast⟩ := hinv.freeLeast hne
    rw [← heq]
    refine ⟨onList_of_mem hinv hs, (hinv.rep.holds s hs).free_iff.mpr hfree, ?_⟩
    intro b hb hbfree
    obtain ⟨t, ht, rfl⟩ := onList_hdr hinv hb
    exact hleast t ht ((hinv.rep.holds t ht).free_iff.mp hbfree)

/-- A search that finds nothing has passed every block of the list. -/
theorem HeapInv.none_fits {h : KHeap π} {spans : List Span} (hinv : HeapInv h spans)
    (hend : h.kheapEnd ≤ 2 ^ 32) {size : Nat} (hsearch : searchBlock h size = some 0) {b : Nat}
    (hb : OnList h b) (hfree : (loadBlock h.mem b).free ≠ 0) : (loadBlock h.mem b).size < size := by
  obtain ⟨s, hs, rfl⟩ := onList_hdr hinv hb
  have hhold := hinv.rep.holds s hs
  rw [searchBlock_eq hinv hend, Option.some.injEq] at hsearch
  cases hfind : spans.find? (fun s => s.free && decide (size ≤ s.size)) with
  | none =>
    have hnone := List.find?_eq_none.mp hfind s hs
    have hsfree := hhold.free_iff.mp hfree
    rw [hhold.size]
    simpa [hsfree] using hnone
  | some t =>
    have hpos := hinv.hdr_pos (List.mem_of_find?_eq_some hfind)
    rw [firstHdr, hfind] at hsearch
    simp only [Option.map_some, Option.getD_some] at hsearch
    omega

/-- **The block list.**  In every state reached while `kheap_end` has not passed
the area of `kalloc_pages`, the list is ordered, and `kmalloc` adds a page only
when no block of the whole list is free and large enough. -/
theorem list_ordered {newPage : π → Nat → Option π} {mem : Mem} {pages : π} {h₀ h : KHeap π}
    {es : List HeapEvent} {live : List Alloc} (hinit : kheapInit newPage mem pages = some h₀)
    (hrun : Run (Guarded (fun s _ => s.1.kheapEnd ≤ LARGE_ALLOC_BASE) (HeapStep newPage))
      (h₀, []) es (h, live)) (hend : h.kheapEnd ≤ LARGE_ALLOC_BASE) :
    Ordered h ∧ ∀ size s', HeapStep newPage (h, live) (.grow size) s' →
      ∀ b, OnList h b → (loadBlock h.mem b).free ≠ 0 → (loadBlock h.mem b).size < size := by
  obtain ⟨spans, hinv, -⟩ := reachable_inv hinit hrun
  refine ⟨hinv.ordered, fun size s' hstep b hb hfree => ?_⟩
  cases hstep with
  | grow hsearch hgrow =>
    have hend' : h.kheapEnd ≤ 2 ^ 32 := by
      simp only [LARGE_ALLOC_BASE] at hend
      omega
    exact hinv.none_fits hend' hsearch hb hfree

/-- After `kmalloc(100)` on a new heap. -/
theorem oneAllocation_ordered : ∃ h₀ h : KHeap Unit,
    kheapInit endlessPages (fun _ => 0) () = some h₀ ∧
      kmalloc endlessPages 1 h₀ 100 = some (0xd0000014, h) ∧ Ordered h := by
  obtain ⟨h₀, h, hinit, hcall, hrun, hend⟩ := oneAllocation_run
  have hle : h.kheapEnd ≤ LARGE_ALLOC_BASE := by rw [hend]; decide
  exact ⟨h₀, h, hinit, hcall, (list_ordered hinit hrun hle).1⟩

end FrogKernel.Kheap
