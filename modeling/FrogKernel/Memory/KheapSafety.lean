import Mathlib.Order.Interval.Set.Disjoint
import FrogKernel.Lib.Runs
import FrogKernel.Memory.KheapList

/-!
# Heap safety

`HeapInv h spans` is the invariant of the heap: its bytes hold the blocks
`spans`, in address order between `kheap_start` and `kheap_end`, and
`free_head` is the first free one.  Every piece of `kmalloc` and `kfree` keeps
it, and an allocation is exactly a block that is not free.

Main result: `live_allocations_safe`.
-/

namespace FrogKernel.Kheap

open FrogKernel.Bytes FrogKernel.DList FrogKernel.Pmm FrogKernel.Runs

variable {π : Type*}

structure HeapInv (h : KHeap π) (spans : List Span) : Prop where
  rep : Rep h.mem spans
  layout : Layout h.kheapStart h.kheapEnd spans
  nonempty : spans ≠ []
  start : h.kheapStart = KHEAP_VIRT_START
  head : h.head = (spans.map Span.hdr).headD 0
  freeHead : h.freeHead = firstHdr Span.free spans

theorem HeapInv.start_lt {h : KHeap π} {spans : List Span} (hinv : HeapInv h spans) :
    h.kheapStart + HEADER ≤ h.kheapEnd := by
  obtain ⟨s, spans', rfl⟩ := List.exists_cons_of_ne_nil hinv.nonempty
  have hs := hinv.layout.inside s (by simp)
  simp only [Span.stop] at hs
  omega

theorem HeapInv.hdr_pos {h : KHeap π} {spans : List Span} (hinv : HeapInv h spans) {s : Span}
    (hs : s ∈ spans) : 0 < s.hdr := by
  have hin := (hinv.layout.inside s hs).1
  rw [hinv.start, KHEAP_VIRT_START] at hin
  omega

/-- The list is shorter than the bound of a walk. -/
theorem HeapInv.length_lt {h : KHeap π} {spans : List Span} (hinv : HeapInv h spans)
    (hend : h.kheapEnd ≤ 2 ^ 32) : spans.length < 2 ^ 32 := by
  have hlen := hinv.layout.length_le (Nat.le_trans (Nat.le_add_right _ _) hinv.start_lt)
  simp only [HEADER] at hlen
  omega

/-! ## Walks -/

theorem find?_hdr {cont : Nat → Bool} {p : Span → Bool} {spans : List Span}
    (hcont : ∀ s ∈ spans, cont s.hdr = !p s) :
    ((spans.map Span.hdr).find? (fun c => !cont c)).getD 0 = firstHdr p spans := by
  induction spans with
  | nil => rfl
  | cons s spans ih =>
    have hs := hcont s (by simp)
    have ih := ih fun t ht => hcont t (List.mem_cons_of_mem s ht)
    simp only [firstHdr, List.map_cons, List.find?_cons, hs, Bool.not_not] at ih ⊢
    cases p s with
    | true => rfl
    | false => exact ih

/-- A walk that starts inside the list ends at the first block that meets `p`. -/
theorem walk_rep {m : Mem} {xs ys : List Span} (cont : Nat → Bool) (p : Span → Bool)
    (h : Rep m (xs ++ ys)) (hlen : ys.length < 2 ^ 32) (hcont : ∀ s ∈ ys, cont s.hdr = !p s)
    (hnull : cont 0 = false) :
    walk m cont ((ys.map Span.hdr).headD 0) = some (firstHdr p ys) := by
  have hseg := h.linked
  rw [List.map_append, seg_append] at hseg
  rw [walk, walkWhile_seg hseg.2 hnull (by simpa using hlen), find?_hdr hcont]

theorem walk_null (m : Mem) {cont : Nat → Bool} (hnull : cont 0 = false) :
    walk m cont 0 = some 0 := by
  have h : Rep m ([] ++ []) := ⟨trivial, by simp⟩
  exact walk_rep cont (fun _ => true) h (by simp) (by simp) hnull

theorem firstHdr_append (p : Span → Bool) (xs ys : List Span) :
    firstHdr p (xs ++ ys) = ((xs.find? p).map Span.hdr).getD (firstHdr p ys) := by
  rw [firstHdr, List.find?_append]
  cases xs.find? p <;> rfl

theorem firstHdr_append_of_none {p : Span → Bool} {xs ys : List Span} (hxs : ∀ x ∈ xs, p x = false) :
    firstHdr p (xs ++ ys) = firstHdr p ys := by
  have hnone : xs.find? p = none := by simpa using hxs
  rw [firstHdr_append, hnone]
  rfl

theorem firstHdr_of_none {p : Span → Bool} {spans : List Span} (h : ∀ s ∈ spans, p s = false) :
    firstHdr p spans = 0 := by
  have hnone : spans.find? p = none := by simpa using h
  rw [firstHdr, hnone]
  rfl

theorem fits_hdr {m : Mem} {s : Span} (h : Holds m s) (size : Nat) :
    fits m size s.hdr = (s.free && decide (size ≤ s.size)) := by
  rw [fits, h.size, h.free]
  cases s.free <;> rfl

/-- The search returns the first block of the whole list that is free and large
enough. -/
theorem searchBlock_eq {h : KHeap π} {spans : List Span} (hinv : HeapInv h spans)
    (hend : h.kheapEnd ≤ 2 ^ 32) (size : Nat) :
    searchBlock h size = some (firstHdr (fun s => s.free && decide (size ≤ s.size)) spans) := by
  have hcont : ∀ s ∈ spans, (s.hdr != 0 && !fits h.mem size s.hdr) =
      !(s.free && decide (size ≤ s.size)) := by
    intro s hs
    have hpos := hinv.hdr_pos hs
    rw [fits_hdr (hinv.rep.holds s hs)]
    simp [hpos.ne']
  rw [searchBlock, hinv.freeHead]
  cases hfind : spans.find? Span.free with
  | none =>
    have hnone : ∀ s ∈ spans, s.free = false := by simpa using hfind
    rw [firstHdr_of_none hnone, firstHdr_of_none (fun s hs => by simp [hnone s hs])]
    exact walk_null h.mem (by simp)
  | some s =>
    obtain ⟨hfree, xs, ys, rfl, hxs⟩ := List.find?_eq_some_iff_append.mp hfind
    have hxs : ∀ x ∈ xs, x.free = false := by simpa using hxs
    have hlen := hinv.length_lt hend
    have hwalk := walk_rep (fun c => c != 0 && !fits h.mem size c)
      (fun s => s.free && decide (size ≤ s.size)) hinv.rep
      (by simp only [List.length_append, List.length_cons] at hlen ⊢; omega)
      (fun t ht => hcont t (List.mem_append_right xs ht)) (by simp)
    rw [firstHdr, hfind, firstHdr_append_of_none (fun x hx => by simp [hxs x hx])]
    exact hwalk

/-- The tail loop ends at the last block. -/
theorem lastBlock_rep {m : Mem} {lo hi : Nat} {xs : List Span} {t : Span} (h : Rep m (xs ++ [t]))
    (hlay : Layout lo hi (xs ++ [t])) (hlo : 0 < lo) (hlen : xs.length + 1 < 2 ^ 32) :
    lastBlock m (((xs ++ [t]).map Span.hdr).headD 0) = some t.hdr := by
  have hseg := h.linked
  rw [List.map_append, List.map_cons, List.map_nil] at hseg ⊢
  have hpass : ∀ x ∈ xs.map Span.hdr, (nextOf m x != 0) = true := by
    intro x hx
    obtain ⟨s, hs, rfl⟩ := List.mem_map.mp hx
    obtain ⟨as, bs, rfl⟩ := List.append_of_mem hs
    have hassoc : as ++ s :: bs ++ [t] = as ++ s :: (bs ++ [t]) := by simp
    have hnext : nextOf m s.hdr = ((bs ++ [t]).map Span.hdr).headD 0 := (hassoc ▸ h).next_mid
    have hpos : ∀ b ∈ bs ++ [t], b.hdr ≠ 0 := by
      intro b hb
      have hin := hlay.inside b (by simp at hb ⊢; tauto)
      omega
    cases bs with
    | nil => simpa [hnext] using hpos t (by simp)
    | cons b bs => simpa [hnext] using hpos b (by simp)
  have hlast : nextOf m t.hdr = 0 := seg_next_last hseg
  obtain ⟨k, hk⟩ : ∃ k, 2 ^ 32 = xs.length + (k + 1) := ⟨2 ^ 32 - xs.length - 1, by omega⟩
  have hwalk := walkWhile_pass (fun c => nextOf m c != 0) (k := k + 1) hseg hpass
  rw [List.length_map] at hwalk
  rw [lastBlock, walk, hk, hwalk]
  simp [walkWhile, hlast]

/-! ## The operations keep the invariant -/

theorem takeBlock_eq (h : KHeap π) (curr size : Nat) : takeBlock h curr size =
    if curr = h.freeHead then
      (skipUsed (takeMem h.mem curr size) (loadBlock (takeMem h.mem curr size) curr).next).map
        fun freeHead => ((loadBlock (takeMem h.mem curr size) curr).addr,
          { h with mem := takeMem h.mem curr size, freeHead })
    else some ((loadBlock (takeMem h.mem curr size) curr).addr,
      { h with mem := takeMem h.mem curr size }) := rfl

/-- `h'` is `h` up to its bytes and `free_head`. -/
structure SameBounds (h h' : KHeap π) : Prop where
  start : h'.kheapStart = h.kheapStart
  end_ : h'.kheapEnd = h.kheapEnd
  size : h'.kheapSize = h.kheapSize
  pages : h'.pages = h.pages

/-- Taking a block moves no bound of the heap. -/
theorem takeBlock_bounds {h h' : KHeap π} {curr size ptr : Nat}
    (htake : takeBlock h curr size = some (ptr, h')) : SameBounds h h' := by
  rw [takeBlock_eq] at htake
  split at htake
  case isTrue =>
    obtain ⟨freeHead, -, heq⟩ := Option.map_eq_some_iff.mp htake
    obtain ⟨-, rfl⟩ := Prod.mk.inj heq
    exact ⟨rfl, rfl, rfl, rfl⟩
  case isFalse =>
    obtain ⟨-, rfl⟩ := Prod.mk.inj (Option.some.inj htake)
    exact ⟨rfl, rfl, rfl, rfl⟩

/-- `takeSpans` starts with the block handed out; the rest is free. -/
theorem takeSpans_cons (s : Span) (size : Nat) :
    ∃ rest, takeSpans s size = ⟨s.hdr, size, false⟩ :: rest ∧ used rest = [] := by
  unfold takeSpans
  split
  · exact ⟨_, rfl, rfl⟩
  · exact ⟨[], rfl, rfl⟩

/-- When a free block is `free_head`, no block before it is free. -/
theorem none_free_before {lo hi : Nat} {xs ys : List Span} {s : Span}
    (hlay : Layout lo hi (xs ++ s :: ys)) (heq : s.hdr = firstHdr Span.free (xs ++ s :: ys)) :
    ∀ x ∈ xs, x.free = false := by
  cases hfind : xs.find? Span.free with
  | none => simpa using hfind
  | some f =>
    have hlt := hlay.around.1 f.hdr (mem_hdrs (List.mem_of_find?_eq_some hfind))
    rw [firstHdr_append, hfind] at heq
    simp only [Option.map_some, Option.getD_some] at heq
    omega

/-- When a free block is not `free_head`, what lies behind does not matter. -/
theorem firstHdr_of_ne {xs ys zs : List Span} {s : Span} (hfree : s.free = true)
    (hne : s.hdr ≠ firstHdr Span.free (xs ++ s :: ys)) :
    firstHdr Span.free (xs ++ s :: ys) = firstHdr Span.free (xs ++ zs) := by
  cases hfind : xs.find? Span.free with
  | none =>
    rw [firstHdr_append, hfind] at hne
    simp [firstHdr, hfree] at hne
  | some f =>
    rw [firstHdr_append, firstHdr_append, hfind]
    rfl

/-- **Taking a block.** -/
theorem takeBlock_inv {h : KHeap π} {xs ys : List Span} {s : Span} {size : Nat}
    (hinv : HeapInv h (xs ++ s :: ys)) (hend : h.kheapEnd ≤ 2 ^ 32) (hfree : s.free = true)
    (hsize : size ≤ s.size) :
    ∃ h', takeBlock h s.hdr size = some (s.hdr + HEADER, h') ∧
      HeapInv h' (xs ++ (takeSpans s size ++ ys)) := by
  have hlo : HEADER < h.kheapStart := by rw [hinv.start]; decide
  have hrep := takeMem_rep hinv.rep hinv.layout hlo hend hsize
  have hlay := hinv.layout.take size hsize
  obtain ⟨rest, hrest, -⟩ := takeSpans_cons s size
  rw [List.append_assoc] at hlay
  rw [hrest, List.cons_append] at hrep hlay ⊢
  have hhead : h.head = ((xs ++ ⟨s.hdr, size, false⟩ :: (rest ++ ys)).map Span.hdr).headD 0 := by
    rw [hinv.head]
    cases xs <;> rfl
  have hinv' : ∀ f, f = firstHdr Span.free (xs ++ ⟨s.hdr, size, false⟩ :: (rest ++ ys)) →
      HeapInv { h with mem := takeMem h.mem s.hdr size, freeHead := f }
        (xs ++ ⟨s.hdr, size, false⟩ :: (rest ++ ys)) :=
    fun f hf => ⟨hrep, hlay, by simp, hinv.start, hhead, hf⟩
  have haddr := (hrep.holds ⟨s.hdr, size, false⟩ (by simp)).addr
  have hnext := hrep.next_mid
  simp only at haddr hnext
  rw [takeBlock_eq, haddr, hnext]
  have hassoc : xs ++ ⟨s.hdr, size, false⟩ :: (rest ++ ys) =
      (xs ++ [⟨s.hdr, size, false⟩]) ++ (rest ++ ys) := by simp
  split
  case isTrue heq =>
    -- nothing up to the block taken is free, and the walk goes on from there
    have hxs := none_free_before hinv.layout (heq.trans hinv.freeHead)
    have hlen := (hinv' _ rfl).length_lt hend
    rw [hassoc] at hrep hlen
    have hskip := walk_rep
      (fun c => c != 0 && (loadBlock (takeMem h.mem s.hdr size) c).free == 0) Span.free hrep
      (by simp only [List.length_append] at hlen ⊢; omega)
      (by
        intro t ht
        have hpos := (hinv' _ rfl).hdr_pos (s := t) (by rw [hassoc]; exact List.mem_append_right _ ht)
        have hhold := hrep.holds t (List.mem_append_right _ ht)
        rw [hhold.free]
        cases t.free <;> simp [hpos.ne'])
      (by simp)
    rw [skipUsed, hskip]
    refine ⟨_, rfl, hinv' _ ?_⟩
    rw [hassoc]
    refine (firstHdr_append_of_none fun x hx => ?_).symm
    rcases List.mem_append.mp hx with hx | hx
    · exact hxs x hx
    · rw [List.mem_singleton.mp hx]
  case isFalse hne =>
    have hne' : s.hdr ≠ firstHdr Span.free (xs ++ s :: ys) := hinv.freeHead ▸ hne
    exact ⟨_, rfl, hinv' h.freeHead (hinv.freeHead.trans (firstHdr_of_ne hfree hne'))⟩

/-- `growHeap` with the memory it leaves named. -/
theorem growHeap_some {newPage : π → Nat → Option π} {h h' : KHeap π}
    (hgrow : growHeap newPage h = some h') :
    ∃ pages tail, newPage h.pages h.kheapEnd = some pages ∧
      lastBlock (freshMem h.mem h.kheapEnd) h.head = some tail ∧
      h' = { h with
        mem := setNext (setPrev (freshMem h.mem h.kheapEnd) h.kheapEnd tail) tail h.kheapEnd
        kheapEnd := add32 h.kheapEnd PAGE_SIZE
        kheapSize := add32 h.kheapSize PAGE_SIZE
        freeHead := if h.freeHead = 0 then h.kheapEnd else h.freeHead
        pages := pages } := by
  obtain ⟨pages, hpages, hmap⟩ := Option.bind_eq_some_iff.mp hgrow
  obtain ⟨tail, htail, hh'⟩ := Option.map_eq_some_iff.mp hmap
  exact ⟨pages, tail, hpages, htail, hh'.symm⟩

/-- `if (free_head == NULL) free_head = new_block` -/
theorem freeHead_grow {spans : List Span} {n : Nat} (hpos : ∀ s ∈ spans, 0 < s.hdr) :
    (if firstHdr Span.free spans = 0 then n else firstHdr Span.free spans) =
      firstHdr Span.free (spans ++ [pageSpan n]) := by
  rw [firstHdr_append]
  cases hfind : spans.find? Span.free with
  | none => simp [firstHdr, hfind, pageSpan]
  | some f =>
    have hf := hpos f (List.mem_of_find?_eq_some hfind)
    simp [firstHdr, hfind, hf.ne']

/-- The tail loop runs over the list as it was before the new page. -/
theorem lastBlock_fresh {h : KHeap π} {xs : List Span} {t : Span} (hinv : HeapInv h (xs ++ [t]))
    (hend : h.kheapEnd + PAGE_SIZE < 2 ^ 32) :
    lastBlock (freshMem h.mem h.kheapEnd) h.head = some t.hdr := by
  simp only [PAGE_SIZE] at hend
  obtain ⟨hfresh, -⟩ := growMem_rep hinv.rep hinv.layout (by simp only [HEADER]; omega)
  have hlen := hinv.length_lt (by omega)
  have hpos : 0 < h.kheapStart := by rw [hinv.start]; decide
  rw [hinv.head]
  exact lastBlock_rep hfresh hinv.layout hpos (by simpa using hlen)

/-- The heap grows when there is a page. -/
theorem growHeap_ends {newPage : π → Nat → Option π} {h : KHeap π} {spans : List Span}
    (hinv : HeapInv h spans) (hend : h.kheapEnd + PAGE_SIZE < 2 ^ 32) {pages : π}
    (hpage : newPage h.pages h.kheapEnd = some pages) :
    ∃ h', growHeap newPage h = some h' ∧ h'.kheapEnd = h.kheapEnd + PAGE_SIZE := by
  obtain ⟨xs, t, rfl⟩ := (List.eq_nil_or_concat' spans).resolve_left hinv.nonempty
  have hlast := lastBlock_fresh hinv hend
  rw [freshMem] at hlast
  rw [growHeap, hpage, Option.bind_some]
  dsimp only
  rw [hlast]
  exact ⟨_, rfl, add32_eq hend⟩

/-- **Growing.** -/
theorem growHeap_inv {newPage : π → Nat → Option π} {h h' : KHeap π} {spans : List Span}
    (hinv : HeapInv h spans) (hend : h.kheapEnd + PAGE_SIZE < 2 ^ 32)
    (hgrow : growHeap newPage h = some h') : HeapInv h' (spans ++ [pageSpan h.kheapEnd]) := by
  obtain ⟨pages, tail, -, htail, rfl⟩ := growHeap_some hgrow
  obtain ⟨xs, t, rfl⟩ := (List.eq_nil_or_concat' spans).resolve_left hinv.nonempty
  have hlo : h.kheapStart ≤ h.kheapEnd := Nat.le_trans (Nat.le_add_right _ _) hinv.start_lt
  rw [lastBlock_fresh hinv hend] at htail
  obtain rfl := Option.some.inj htail
  simp only [PAGE_SIZE] at hend
  obtain ⟨-, hrep⟩ := growMem_rep hinv.rep hinv.layout (by simp only [HEADER]; omega)
  refine ⟨hrep, ?_, by simp, hinv.start, ?_, ?_⟩
  · have hadd : add32 h.kheapEnd PAGE_SIZE = h.kheapEnd + PAGE_SIZE :=
      add32_eq (by simp only [PAGE_SIZE]; omega)
    simp only [hadd]
    exact hinv.layout.grow hlo
  · rw [hinv.head]
    cases xs <;> rfl
  · rw [← freeHead_grow fun s hs => hinv.hdr_pos hs, hinv.freeHead]

/-- How `kfree` updates `free_head` when everything before the block it leaves
lies below, and the rest not. -/
theorem freeHead_release {xs rest : List Span} {b : Nat} (hxs : ∀ x ∈ xs, 0 < x.hdr ∧ x.hdr < b)
    (hrest : ∀ r ∈ rest, b ≤ r.hdr) :
    (if firstHdr Span.free (xs ++ rest) = 0 ∨ b < firstHdr Span.free (xs ++ rest) then b
      else firstHdr Span.free (xs ++ rest)) = ((xs.find? Span.free).map Span.hdr).getD b := by
  rw [firstHdr_append]
  cases hfind : xs.find? Span.free with
  | some f =>
    have hf := hxs f (List.mem_of_find?_eq_some hfind)
    simp only [Option.map_some, Option.getD_some]
    rw [if_neg (by omega)]
  | none =>
    simp only [Option.map_none, Option.getD_none]
    cases hfind' : rest.find? Span.free with
    | none => simp [firstHdr, hfind']
    | some r =>
      have hr := hrest r (List.mem_of_find?_eq_some hfind')
      simp only [firstHdr, hfind', Option.map_some, Option.getD_some]
      split <;> omega

theorem releaseBlock_eq (h : KHeap π) {block : Nat} (hused : (loadBlock h.mem block).free = 0) :
    releaseBlock h block =
      { h with
        mem := (coalescePrev (coalesceNext (setFree h.mem block 1) block) block).2
        freeHead :=
          if h.freeHead = 0 ∨
              (coalescePrev (coalesceNext (setFree h.mem block 1) block) block).1 < h.freeHead then
            (coalescePrev (coalesceNext (setFree h.mem block 1) block) block).1
          else h.freeHead } := by
  rw [releaseBlock, if_neg (not_not.mpr hused)]

theorem kfree_bounds (h : KHeap π) (addr : Nat) : SameBounds h (kfree h addr) := by
  rw [kfree]
  split
  case isTrue => exact ⟨rfl, rfl, rfl, rfl⟩
  case isFalse =>
    by_cases hused : (loadBlock h.mem (sub32 addr HEADER)).free = 0
    · rw [releaseBlock_eq h hused]
      exact ⟨rfl, rfl, rfl, rfl⟩
    · rw [releaseBlock, if_pos hused]
      exact ⟨rfl, rfl, rfl, rfl⟩

theorem Layout.setFree {lo hi : Nat} {xs ys : List Span} {s : Span}
    (h : Layout lo hi (xs ++ s :: ys)) : Layout lo hi (xs ++ { s with free := true } :: ys) := by
  have hmid : Layout lo hi (xs ++ [s] ++ ys) := by simpa using h
  have h1 := Layout.replace [{ s with free := true }] hmid (by simp) (by simp) (by simp [Span.stop])
  simpa using h1

theorem setFree_rep {m : Mem} {lo hi : Nat} {xs ys : List Span} {s : Span}
    (h : Rep m (xs ++ s :: ys)) (hlay : Layout lo hi (xs ++ s :: ys)) :
    Rep (setFree m s.hdr 1) (xs ++ { s with free := true } :: ys) := by
  have hmem : Hdrs (xs ++ s :: ys) s.hdr := mem_hdrs (by simp)
  have hS := hlay.separate
  refine h.reset rfl ?_ fun x hx => ?_
  · rw [loadBlock_setFree (hS _ _ hmem hmem) (by decide), if_pos rfl,
      ← (h.holds s (by simp)).size]
    rfl
  · have hne := hlay.others_ne hx
    have hsub : List.Sublist (xs ++ ys) (xs ++ s :: ys) := by simp
    rw [loadBlock_setFree (hS x _ (hdrs_mono hsub.subset hx) hmem) (by decide), if_neg hne]

/-- **Releasing.**  `kfree` of a used block takes it out of the used ones. -/
theorem kfree_inv {h : KHeap π} {xs ys : List Span} {s : Span}
    (hinv : HeapInv h (xs ++ s :: ys)) (hend : h.kheapEnd < 2 ^ 32) (hfree : s.free = false) :
    ∃ spans, HeapInv (kfree h (s.hdr + HEADER)) spans ∧ used spans = used xs ++ used ys ∧
      total spans = total (xs ++ s :: ys) := by
  have hin := hinv.layout.inside s (by simp)
  have hpos := hinv.hdr_pos (s := s) (by simp)
  have hlo : 0 < h.kheapStart := by rw [hinv.start]; decide
  simp only [Span.stop] at hin
  have hblock : sub32 (s.hdr + HEADER) HEADER = s.hdr := by
    rw [sub32_eq (Nat.le_add_left _ _) (by simp only [HEADER] at hin ⊢; omega), Nat.add_sub_cancel]
  have hhold := hinv.rep.holds s (by simp)
  rw [kfree, if_neg (by simp only [HEADER]; omega), hblock,
    releaseBlock_eq h (by rw [hhold.free, hfree]; rfl)]
  have hlay1 := hinv.layout.setFree
  have hrep1 := setFree_rep hinv.rep hinv.layout
  -- the two merges
  obtain ⟨s2, ys2, hhdr2, hfree2, hused2, hrep2, hlay2, htot2⟩ :=
    coalesceNext_rep hrep1 hlay1 hlo hend.le
  simp only at hhdr2 hrep2
  obtain ⟨xs3, s3, hfree3, hret, hrep3, hlay3, htot3, hcases⟩ :=
    coalescePrev_rep hrep2 hlay2 hlo hend.le hfree2
  rw [hhdr2] at hret hrep3
  generalize coalescePrev (coalesceNext (setFree h.mem s.hdr 1) s.hdr) s.hdr = r at hret hrep3 ⊢
  have hused3 : used (xs3 ++ s3 :: ys2) = used xs ++ used ys := by
    have hmid : used (xs3 ++ s3 :: ys2) = used xs3 ++ used ys2 := by simp [used, hfree3]
    rw [hmid, hused2]
    rcases hcases with ⟨rfl, -⟩ | ⟨a, rfl, hafree, -⟩
    · rfl
    · simp [used, hafree]
  have htotal : total (xs3 ++ s3 :: ys2) = total (xs ++ s :: ys) := by
    rw [htot3, total_append, htot2]
    simp
  -- the old list is `xs3` and blocks not below the block that is left
  obtain ⟨rest, hsplit, hrest, hhead⟩ : ∃ rest, xs ++ s :: ys = xs3 ++ rest ∧
      (∀ r ∈ rest, s3.hdr ≤ r.hdr) ∧ (rest.map Span.hdr).headD 0 = s3.hdr := by
    rcases hcases with ⟨rfl, heq⟩ | ⟨a, rfl, -, heq⟩
    · refine ⟨s :: ys, rfl, fun r hr => ?_, by simp [heq, hhdr2]⟩
      rw [heq, hhdr2]
      rcases List.mem_cons.mp hr with rfl | hr
      · exact Nat.le_refl _
      · have hle := hinv.layout.around.2 r.hdr (mem_hdrs hr)
        simp only [Span.stop] at hle
        omega
    · have hlay := hinv.layout
      rw [List.append_assoc, List.singleton_append] at hlay
      refine ⟨a :: s :: ys, by simp, fun r hr => ?_, by simp [heq]⟩
      rw [heq]
      rcases List.mem_cons.mp hr with rfl | hr
      · exact Nat.le_refl _
      · have hle := hlay.around.2 r.hdr (mem_hdrs hr)
        simp only [Span.stop] at hle
        omega
  have hbelow : ∀ x ∈ xs3, 0 < x.hdr ∧ x.hdr < s3.hdr := fun x hx =>
    ⟨Nat.lt_of_lt_of_le hlo (hlay3.inside x (by simp [hx])).1, hlay3.around.1 _ (mem_hdrs hx)⟩
  refine ⟨xs3 ++ s3 :: ys2, ⟨hrep3, hlay3, by simp, hinv.start, ?_, ?_⟩, hused3, htotal⟩
  · rw [hinv.head, hsplit]
    cases xs3 with
    | nil => simpa using hhead
    | cons x xs3 => rfl
  · dsimp only
    rw [hret, hinv.freeHead, hsplit, freeHead_release hbelow hrest, firstHdr_append]
    simp [firstHdr, hfree3]

end FrogKernel.Kheap
