import FrogKernel.Memory.KheapTiling
import Mathlib.Data.List.Chain

/-!
# Freed blocks grow together (`memory/kheap.c`)

`kfree` merges the block with the free neighbours that it finds.  Only a page
that `kmalloc` adds at the end is not merged with the free block before it, so
two free blocks in a row meet where such a page begins.

Main results:

* `heap_coalesced`: so it is in every reachable state;
* `all_freed_iff`: when all blocks are freed and no page was added, the heap is
  the one `kheap_init` made, exactly when no request took a block with 1 to 20
  bytes to spare.
-/

namespace FrogKernel.Kheap

open FrogKernel.Bytes FrogKernel.DList FrogKernel.Pmm FrogKernel.Runs

variable {π : Type*}

/-- Where a page that was added to the heap may begin. -/
def PageStart (x : Nat) : Prop := KHEAP_VIRT_START + KHEAP_INITIAL_SIZE ≤ x ∧ x % PAGE_SIZE = 0

/-- Free neighbours meet at an added page. -/
def Coalesced (h : KHeap π) : Prop :=
  ∀ b, OnList h b → (loadBlock h.mem b).free ≠ 0 → (loadBlock h.mem b).next ≠ 0 →
    (loadBlock h.mem (loadBlock h.mem b).next).free ≠ 0 → PageStart (loadBlock h.mem b).next

/-- The header that `kheap_init` writes, as the only one. -/
structure Restored (h : KHeap π) : Prop where
  head : h.head = KHEAP_VIRT_START
  freeHead : h.freeHead = KHEAP_VIRT_START
  block : loadBlock h.mem KHEAP_VIRT_START =
    ⟨KHEAP_VIRT_START + HEADER, KHEAP_INITIAL_SIZE - HEADER, 1, 0, 0⟩

/-! ## Lists of blocks -/

/-- Two blocks in a row. -/
def Meets (s t : Span) : Prop := s.free = true → t.free = true → PageStart t.hdr

theorem meets_of_used {s t : Span} (hs : s.free = false) : Meets s t :=
  fun hfree => by rw [hs] at hfree; cases hfree

theorem meets_used {s t : Span} (ht : t.free = false) : Meets s t :=
  fun _ hfree => by rw [ht] at hfree; cases hfree

/-- The block and what is left of the list behind it, after the merge with the
next block. -/
def mergeNext (s : Span) : List Span → List Span
  | [] => [s]
  | t :: ys => if t.free then { s with size := s.size + (HEADER + t.size) } :: ys else s :: t :: ys

theorem mergeNext_cons (s : Span) (ys : List Span) :
    ∃ s' ys', mergeNext s ys = s' :: ys' ∧ s'.hdr = s.hdr ∧ s'.free = s.free := by
  cases ys with
  | nil => exact ⟨s, [], rfl, rfl, rfl⟩
  | cons t ys =>
    rw [mergeNext]
    split
    · exact ⟨_, ys, rfl, rfl, rfl⟩
    · exact ⟨s, t :: ys, rfl, rfl, rfl⟩

theorem mergeNext_chain {s : Span} {ys : List Span} (h : ys.IsChain Meets) :
    (mergeNext s ys).IsChain Meets := by
  cases ys with
  | nil => exact List.isChain_singleton s
  | cons t ys =>
    obtain ⟨hnext, htail⟩ := List.isChain_cons.mp h
    rw [mergeNext]
    split
    case isTrue ht =>
      refine List.isChain_cons.mpr ⟨fun u hu => ?_, htail⟩
      exact fun _ hfree => hnext u hu ht hfree
    case isFalse ht =>
      refine List.isChain_cons.mpr ⟨fun u hu => ?_, h⟩
      obtain rfl := Option.some.inj hu
      exact meets_used (by simpa using ht)

theorem coalesceNext_spans {m : Mem} {lo hi : Nat} {xs ys : List Span} {s : Span}
    (h : Rep m (xs ++ s :: ys)) (hlay : Layout lo hi (xs ++ s :: ys)) (hlo : 0 < lo)
    (hhi : hi ≤ 2 ^ 32) :
    Rep (coalesceNext m s.hdr) (xs ++ mergeNext s ys) ∧ Layout lo hi (xs ++ mergeNext s ys) := by
  have hnext := h.next_mid
  rw [coalesceNext_eq]
  rcases headD_hdr ys with ⟨hn, rfl⟩ | ⟨t, zs, rfl, hn⟩
  · rw [if_neg (by rw [hnext, hn]; simp)]
    exact ⟨h, hlay⟩
  · have hT := h.holds t (by simp)
    have ht := hlay.inside t (by simp)
    rw [hnext, hn, mergeNext]
    cases hfree : t.free with
    | false =>
      rw [if_neg (fun hc => by simp [hT.free_iff.mp hc.2] at hfree), if_neg (by simp)]
      exact ⟨h, hlay⟩
    | true =>
      rw [if_pos ⟨by omega, hT.free_iff.mpr hfree⟩, if_pos rfl]
      exact ⟨mergeBlocks_rep h hlay hlo hhi, hlay.merge⟩

/-- No merge with the block before, so that one is in use. -/
theorem coalescePrev_stays {m : Mem} {lo hi : Nat} {xs ys : List Span} {a s : Span}
    (h : Rep m (xs ++ [a] ++ s :: ys)) (hlay : Layout lo hi (xs ++ [a] ++ s :: ys)) (hlo : 0 < lo)
    (hret : (coalescePrev m s.hdr).1 = s.hdr) : a.free = false := by
  have hA := h.holds a (by simp)
  have ha := hlay.inside a (by simp)
  have hlt := hlay.around.1 a.hdr (mem_hdrs (by simp))
  have hprev : (loadBlock m s.hdr).prev = a.hdr := by simpa using h.prev_mid
  cases hfree : a.free with
  | false => rfl
  | true =>
    rw [coalescePrev_eq, hprev, if_pos ⟨by omega, hA.free_iff.mpr hfree⟩] at hret
    omega

/-- **What `kfree` makes of the list.** -/
theorem release_chain {m : Mem} {lo hi : Nat} {xs ys : List Span} {s : Span}
    (h : Rep m (xs ++ s :: ys)) (hlay : Layout lo hi (xs ++ s :: ys)) (hlo : 0 < lo)
    (hhi : hi ≤ 2 ^ 32) (hchain : (xs ++ s :: ys).IsChain Meets) :
    ∃ spans, Rep (coalescePrev (coalesceNext (setFree m s.hdr 1) s.hdr) s.hdr).2 spans ∧
      Layout lo hi spans ∧ (spans.map Span.hdr).headD 0 = ((xs ++ s :: ys).map Span.hdr).headD 0 ∧
      spans.IsChain Meets := by
  obtain ⟨hxs, hsys, hcross⟩ := List.isChain_append.mp hchain
  obtain ⟨-, hys⟩ := List.isChain_cons.mp hsys
  obtain ⟨hrep1, hlay1⟩ := coalesceNext_spans (setFree_rep h hlay) hlay.setFree hlo hhi
  have hchain1 := mergeNext_chain (s := { s with free := true }) hys
  obtain ⟨s1, ys1, hmerge, hhdr1, hfree1⟩ := mergeNext_cons { s with free := true } ys
  rw [hmerge] at hrep1 hlay1 hchain1
  simp only at hhdr1 hfree1 hrep1
  obtain ⟨xs', s', hfree', hret, hrep', hlay', -, hcases⟩ :=
    coalescePrev_rep hrep1 hlay1 hlo hhi hfree1
  obtain ⟨hfirst, hys1⟩ := List.isChain_cons.mp hchain1
  -- the block that is left is free, as the one before it was
  have hafter : (s' :: ys1).IsChain Meets := by
    refine List.isChain_cons.mpr ⟨fun u hu => ?_, hys1⟩
    exact fun _ hfree => hfirst u hu hfree1 hfree
  rw [hhdr1] at hrep' hret
  refine ⟨xs' ++ s' :: ys1, hrep', hlay', ?_, ?_⟩
  · rcases hcases with ⟨rfl, heq⟩ | ⟨a, rfl, -, heq⟩
    · cases xs with
      | nil => simp [heq, hhdr1]
      | cons x xs => rfl
    · cases xs' with
      | nil => simp [heq]
      | cons x xs' => rfl
  · rcases hcases with ⟨rfl, heq⟩ | ⟨a, rfl, hafree, heq⟩
    · refine List.isChain_append.mpr ⟨hxs, hafter, fun a ha t _ => meets_of_used ?_⟩
      obtain ⟨zs, rfl⟩ := List.getLast?_eq_some_iff.mp ha
      refine coalescePrev_stays hrep1 hlay1 hlo ?_
      rw [hhdr1, hret, heq, hhdr1]
    · obtain ⟨hxs', -, hlast⟩ := List.isChain_append.mp hxs
      refine List.isChain_append.mpr ⟨hxs', hafter, fun b hb t ht => ?_⟩
      obtain rfl := Option.some.inj ht
      exact fun hbfree _ => heq ▸ hlast b hb a rfl hbfree hafree

/-! ## The list is in the headers -/

theorem Rep.eq_map {m : Mem} {spans : List Span} (h : Rep m spans) :
    spans = (spans.map Span.hdr).map fun b =>
      ⟨b, (loadBlock m b).size, decide ((loadBlock m b).free ≠ 0)⟩ := by
  rw [List.map_map]
  refine (List.map_id spans).symm.trans (List.map_congr_left fun s hs => ?_)
  have hhold := h.holds s hs
  have hfree : decide ((loadBlock m s.hdr).free ≠ 0) = s.free := by
    rw [hhold.free]
    cases s.free <;> rfl
  rw [Function.comp_apply, hhold.size, hfree, id]

theorem Rep.unique {m : Mem} {lo hi lo' hi' : Nat} {spans spans' : List Span} (h : Rep m spans)
    (h' : Rep m spans') (hlay : Layout lo hi spans) (hlay' : Layout lo' hi' spans') (hlo : 0 < lo)
    (hlo' : 0 < lo') (hhead : (spans.map Span.hdr).headD 0 = (spans'.map Span.hdr).headD 0) :
    spans = spans' := by
  have hpos : ∀ {lo hi : Nat} {spans : List Span}, Layout lo hi spans → 0 < lo →
      ∀ b ∈ spans.map Span.hdr, b ≠ 0 := by
    intro lo hi spans hlay hlo b hb
    obtain ⟨s, hs, rfl⟩ := List.mem_map.mp hb
    exact (Nat.lt_of_lt_of_le hlo (hlay.inside s hs).1).ne'
  have hchain := chain_of_seg h.linked (hpos hlay hlo)
  have hchain' := chain_of_seg h'.linked (hpos hlay' hlo')
  rw [← hhead] at hchain'
  rw [h.eq_map, h'.eq_map, chain_unique hchain hchain']

theorem HeapInv.unique {h : KHeap π} {spans spans' : List Span} (hinv : HeapInv h spans)
    (hinv' : HeapInv h spans') : spans = spans' := by
  have hlo : 0 < h.kheapStart := by rw [hinv.start]; decide
  exact hinv.rep.unique hinv'.rep hinv.layout hinv'.layout hlo hlo
    (hinv.head.symm.trans hinv'.head)

/-! ## Steps -/

theorem heapStep_head {newPage : π → Nat → Option π} {h h' : KHeap π} {live live' : List Alloc}
    {e : HeapEvent} (hstep : HeapStep newPage (h, live) e (h', live')) : h'.head = h.head := by
  cases hstep with
  | kmalloc hsearch hcurr htake =>
    rw [takeBlock_eq] at htake
    split at htake
    case isTrue =>
      obtain ⟨freeHead, -, heq⟩ := Option.map_eq_some_iff.mp htake
      obtain ⟨-, rfl⟩ := Prod.mk.inj heq
      rfl
    case isFalse =>
      obtain ⟨-, rfl⟩ := Prod.mk.inj (Option.some.inj htake)
      rfl
  | grow hsearch hgrow =>
    obtain ⟨_, _, -, -, rfl⟩ := growHeap_some hgrow
    rfl
  | @kfree _ _ a ha =>
    rw [kfree]
    split
    case isTrue => rfl
    case isFalse =>
      by_cases hused : (loadBlock h.mem (sub32 a.ptr HEADER)).free = 0
      · rw [releaseBlock_eq h hused]
      · rw [releaseBlock, if_pos hused]
  | write => rfl

/-- A heap whose list is coalesced, and whose pages are whole. -/
structure Grown (h : KHeap π) (spans : List Span) : Prop where
  chain : spans.IsChain Meets
  pages : PageStart h.kheapEnd
  head : h.head = KHEAP_VIRT_START

theorem kfree_chain {h : KHeap π} {xs ys spans : List Span} {s : Span}
    (hinv : HeapInv h (xs ++ s :: ys)) (hend : h.kheapEnd < 2 ^ 32) (hfree : s.free = false)
    (hinv' : HeapInv (kfree h (s.hdr + HEADER)) spans) (hhead : (kfree h (s.hdr + HEADER)).head = h.head)
    (hchain : (xs ++ s :: ys).IsChain Meets) : spans.IsChain Meets := by
  have hin := hinv.layout.inside s (by simp)
  have hlo : 0 < h.kheapStart := by rw [hinv.start]; decide
  have hlo' : 0 < (kfree h (s.hdr + HEADER)).kheapStart := by rw [hinv'.start]; decide
  obtain ⟨spans', hrep', hlay', hhead', hchain'⟩ :=
    release_chain hinv.rep hinv.layout hlo hend.le hchain
  simp only [Span.stop] at hin
  have hblock : sub32 (s.hdr + HEADER) HEADER = s.hdr := by
    rw [sub32_eq (Nat.le_add_left _ _) (by simp only [HEADER] at hin ⊢; omega), Nat.add_sub_cancel]
  have hmem : (kfree h (s.hdr + HEADER)).mem =
      (coalescePrev (coalesceNext (setFree h.mem s.hdr 1) s.hdr) s.hdr).2 := by
    rw [kfree, if_neg (by simp only [HEADER]; omega), hblock,
      releaseBlock_eq h (by rw [(hinv.rep.holds s (by simp)).free, hfree]; rfl)]
  rw [← hmem] at hrep'
  have hsame : (spans.map Span.hdr).headD 0 = (spans'.map Span.hdr).headD 0 := by
    rw [hhead', ← hinv'.head, hhead, hinv.head]
  rw [hinv'.rep.unique hrep' hinv'.layout hlay' hlo' hlo hsame]
  exact hchain'

theorem take_chain {xs ys : List Span} {s : Span} (size : Nat) (hfree : s.free = true)
    (hchain : (xs ++ s :: ys).IsChain Meets) : (xs ++ (takeSpans s size ++ ys)).IsChain Meets := by
  obtain ⟨hxs, hsys, hcross⟩ := List.isChain_append.mp hchain
  obtain ⟨hnext, hys⟩ := List.isChain_cons.mp hsys
  refine List.isChain_append.mpr ⟨hxs, ?_, fun a _ t ht => ?_⟩
  · unfold takeSpans
    split
    · refine List.isChain_cons.mpr ⟨fun _ _ => meets_of_used rfl, ?_⟩
      exact List.isChain_cons.mpr ⟨fun u hu _ hufree => hnext u hu hfree hufree, hys⟩
    · exact List.isChain_cons.mpr ⟨fun _ _ => meets_of_used rfl, hys⟩
  · obtain ⟨rest, hrest, -⟩ := takeSpans_cons s size
    rw [hrest] at ht
    obtain rfl := Option.some.inj ht
    exact meets_used rfl

/-- **Step.** -/
theorem heapStep_grown {newPage : π → Nat → Option π} {h h' : KHeap π} {live live' : List Alloc}
    {e : HeapEvent} {spans spans' : List Span} {lost lost' : Nat}
    (hstep : HeapStep newPage (h, live) e (h', live')) (hl : Ledger h live spans lost)
    (hl' : Ledger h' live' spans' lost') (hend : h.kheapEnd + e.gain < 2 ^ 32)
    (hg : Grown h spans) : Grown h' spans' := by
  have hsize := hl.size
  have hhead := heapStep_head hstep
  obtain ⟨-, hend', -⟩ := heapStep_gain hstep hend (by omega)
  refine ⟨?_, ?_, hhead.trans hg.head⟩
  · cases hstep with
    | @kmalloc _ _ _ size curr ptr hsearch hcurr htake =>
      rw [searchBlock_eq hl.inv hl.bound.le] at hsearch
      obtain rfl := Option.some.inj hsearch
      cases hfind : spans.find? (fun s => s.free && decide (size ≤ s.size)) with
      | none =>
        rw [firstHdr, hfind] at hcurr
        exact absurd rfl hcurr
      | some s =>
        obtain ⟨hfit, xs, ys, rfl, -⟩ := List.find?_eq_some_iff_append.mp hfind
        obtain ⟨hfree, hsize⟩ : s.free = true ∧ size ≤ s.size := by simpa using hfit
        rw [firstHdr, hfind] at htake
        obtain ⟨h1, htake', hinv'⟩ := takeBlock_inv hl.inv hl.bound.le hfree hsize
        obtain rfl : h1 = h' := (Prod.mk.inj (Option.some.inj (htake'.symm.trans htake))).2
        rw [hl'.inv.unique hinv']
        exact take_chain size hfree hg.chain
    | grow hsearch hgrow =>
      rw [hl'.inv.unique (growHeap_inv hl.inv hend hgrow)]
      refine List.isChain_append.mpr ⟨hg.chain, List.isChain_singleton _, fun a _ t ht => ?_⟩
      obtain rfl := Option.some.inj ht
      exact fun _ _ => hg.pages
    | @kfree _ _ a hmem =>
      obtain ⟨s, hs, rfl⟩ := List.mem_map.mp (hl.owned.mem_iff.mp hmem)
      obtain ⟨hs, hfree⟩ : s ∈ spans ∧ s.free = false := by simpa [used] using hs
      obtain ⟨xs, ys, rfl⟩ := List.append_of_mem hs
      exact kfree_chain hl.inv hl.bound hfree hl'.inv hhead hg.chain
    | @write _ _ a mem hmem hsame =>
      obtain ⟨s, hs, rfl⟩ := List.mem_map.mp (hl.owned.mem_iff.mp hmem)
      rw [hl'.inv.unique (write_inv hl.inv (List.mem_of_mem_filter hs) hsame)]
      exact hg.chain
  · -- the heap ends at a page
    have hpages := hg.pages
    rw [hend']
    have hgain : e.gain = PAGE_SIZE ∨ e.gain = 0 := by cases e <;> simp [HeapEvent.gain]
    rw [PageStart, PAGE_SIZE] at hpages ⊢
    rw [PAGE_SIZE] at hgain
    omega

/-! ## Runs -/

section

variable {newPage : π → Nat → Option π} {mem : Mem} {pages : π} {h₀ h : KHeap π}
  {es : List HeapEvent} {live : List Alloc}

theorem kheapInit_grown (hinit : kheapInit newPage mem pages = some h) :
    Grown h [⟨KHEAP_VIRT_START, KHEAP_INITIAL_SIZE - HEADER, true⟩] := by
  have hinv := kheapInit_inv hinit
  obtain ⟨pages', -, rfl⟩ := Option.map_eq_some_iff.mp hinit
  have hpages : PageStart (KHEAP_VIRT_START + KHEAP_INITIAL_SIZE) := ⟨Nat.le_refl _, by decide⟩
  exact ⟨List.isChain_singleton _, hpages, rfl⟩

theorem grown_run {s t : KHeap π × List Alloc}
    (hrun : Run (Guarded NoWrap (HeapStep newPage)) s es t) : ∀ {spans lost},
      Ledger s.1 s.2 spans lost → Grown s.1 spans →
        ∃ spans' lost', Ledger t.1 t.2 spans' lost' ∧ Grown t.1 spans' := by
  induction hrun with
  | refl => exact fun {spans lost} hl hg => ⟨spans, lost, hl, hg⟩
  | step hr _ ih =>
    intro spans lost hl hg
    obtain ⟨spans', hl'⟩ := heapStep_ledger hr.2 hl hr.1
    exact ih hl' (heapStep_grown hr.2 hl hl' hr.1 hg)

theorem Grown.coalesced {spans : List Span} (hg : Grown h spans) (hinv : HeapInv h spans) :
    Coalesced h := by
  intro b hb hfree hne hnextfree
  obtain ⟨s, hs, rfl⟩ := onList_hdr hinv hb
  obtain ⟨xs, ys, rfl⟩ := List.append_of_mem hs
  rw [hinv.rep.next_mid] at hne hnextfree ⊢
  rcases headD_hdr ys with ⟨hn, -⟩ | ⟨t, zs, rfl, hn⟩
  · exact absurd hn hne
  · rw [hn] at hnextfree ⊢
    obtain ⟨-, hsys, -⟩ := List.isChain_append.mp hg.chain
    exact (List.isChain_cons.mp hsys).1 t rfl ((hinv.rep.holds s (by simp)).free_iff.mp hfree)
      ((hinv.rep.holds t (by simp)).free_iff.mp hnextfree)

/-- **Coalescing.**  After any calls, two free blocks in a row meet at the start
of a page that was added to the heap. -/
theorem heap_coalesced (hinit : kheapInit newPage mem pages = some h₀)
    (hrun : Run (Guarded NoWrap (HeapStep newPage)) (h₀, []) es (h, live)) : Coalesced h := by
  obtain ⟨spans, lost, hl, hg⟩ := grown_run hrun (kheapInit_ledger hinit) (kheapInit_grown hinit)
  exact hg.coalesced hl.inv

/-- Nothing in use and no page added: one block is left. -/
theorem Grown.one_block {spans : List Span} {lost : Nat} (hg : Grown h spans)
    (hl : Ledger h [] spans lost) (hend : h.kheapEnd = KHEAP_VIRT_START + KHEAP_INITIAL_SIZE) :
    ∃ size, spans = [⟨KHEAP_VIRT_START, size, true⟩] ∧
      size + HEADER + lost = KHEAP_INITIAL_SIZE := by
  have hfree : ∀ s ∈ spans, s.free = true := by
    intro s hs
    have hused : used spans = [] := by simpa [Owned] using hl.owned
    rw [used, List.filter_eq_nil_iff] at hused
    simpa using hused s hs
  obtain ⟨s, rest, rfl⟩ := List.exists_cons_of_ne_nil hl.inv.nonempty
  have hhdr : s.hdr = KHEAP_VIRT_START := hl.inv.head.symm.trans hg.head
  cases rest with
  | nil =>
    have hbytes := hl.bytes
    rw [hl.inv.start, hend, total_cons, total_nil] at hbytes
    refine ⟨s.size, ?_, by omega⟩
    rw [← hhdr, ← hfree s (by simp)]
  | cons t rest =>
    -- a second block would begin behind the heap
    have hmeets := (List.isChain_cons.mp hg.chain).1 t rfl (hfree s (by simp)) (hfree t (by simp))
    have hin := (hl.inv.layout.inside t (by simp)).2
    rw [Span.stop, hend, HEADER] at hin
    have hle := hmeets.1
    omega

theorem Grown.restored_iff {spans : List Span} {lost : Nat} (hg : Grown h spans)
    (hl : Ledger h [] spans lost) (hend : h.kheapEnd = KHEAP_VIRT_START + KHEAP_INITIAL_SIZE) :
    Restored h ↔ lost = 0 := by
  obtain ⟨size, rfl, hsize⟩ := hg.one_block hl hend
  have hhold := hl.inv.rep.holds _ (List.mem_singleton_self _)
  constructor
  · intro h
    have hheader : KHEAP_INITIAL_SIZE - HEADER = size :=
      (congrArg KHeapBlock.size h.block).symm.trans hhold.size
    rw [HEADER, KHEAP_INITIAL_SIZE] at hheader hsize
    omega
  · rintro rfl
    refine ⟨hg.head, hl.inv.freeHead, ?_⟩
    have hprev : (loadBlock h.mem KHEAP_VIRT_START).prev = 0 :=
      @Rep.prev_mid h.mem [] [] _ hl.inv.rep
    have hnext : (loadBlock h.mem KHEAP_VIRT_START).next = 0 :=
      @Rep.next_mid h.mem [] [] _ hl.inv.rep
    have heq : size = KHEAP_INITIAL_SIZE - HEADER := by omega
    rw [← heq]
    generalize hb : loadBlock h.mem KHEAP_VIRT_START = block at hprev hnext
    obtain ⟨haddr, hsz, hfr⟩ := hhold
    rw [hb] at haddr hsz hfr
    obtain ⟨addr, sz, fr, prev, next⟩ := block
    simp only at haddr hsz hfr hprev hnext
    subst haddr hsz hfr hprev hnext
    rfl

/-- **A heap with everything freed.**  When no page was added, the heap is the
one that `kheap_init` made, exactly when no request of the run took a block with
1 to 20 bytes to spare. -/
theorem all_freed_iff (hinit : kheapInit newPage mem pages = some h₀)
    (hrun : Run (Guarded NoWrap (HeapStep newPage)) (h₀, []) es (h, []))
    (hend : h.kheapEnd = KHEAP_VIRT_START + KHEAP_INITIAL_SIZE) :
    Restored h ↔ Run (Guarded Exact (Guarded NoWrap (HeapStep newPage))) (h₀, []) es (h, []) := by
  obtain ⟨spans, lost, hl, hg⟩ := grown_run hrun (kheapInit_ledger hinit) (kheapInit_grown hinit)
  rw [hg.restored_iff hl hend]
  constructor
  · rintro rfl
    rcases hrun.guarded_or Exact with hexact | ⟨past, e, rest, u, rfl, hpast, hrest, hfail⟩
    · exact hexact
    · -- the bytes of the first step that is not exact stay lost
      obtain ⟨before, hbefore⟩ := exact_run hpast (kheapInit_ledger hinit)
      obtain ⟨v, hstep, htail⟩ := hrest.of_cons
      obtain ⟨after, hafter⟩ := heapStep_ledger hstep.2 hbefore hstep.1
      obtain ⟨spans', lost', hlast, hle⟩ := ledger_run htail hafter
      have htotal := hlast.bytes
      rw [hlast.inv.unique hl.inv, ← hl.bytes] at htotal
      exact absurd ((hbefore.inv.exact_iff e).mpr (by omega)) hfail
  · intro hexact
    obtain ⟨spans', hl'⟩ := exact_run hexact (kheapInit_ledger hinit)
    have htotal := hl.bytes
    rw [hl.inv.unique hl'.inv, ← hl'.bytes] at htotal
    omega

end

/-! ## One block, taken and freed -/

theorem takenFreed_run : Run (Guarded Exact (Guarded NoWrap (HeapStep endlessPages)))
    (freshHeap, []) [.kmalloc 100 0xd0000014, .kfree 0xd0000014]
    (kfree (afterKmalloc freshHeap 100) 0xd0000014, []) := by
  have htake : Guarded NoWrap (HeapStep endlessPages) (freshHeap, []) (.kmalloc 100 0xd0000014)
      (afterKmalloc freshHeap 100, [⟨0xd0000014, 100⟩]) :=
    afterKmalloc_step 100 0xd0000014 (by decide +kernel) (by decide +kernel)
  have hfree := kfree_step (List.mem_singleton_self (⟨0xd0000014, 100⟩ : Alloc))
    (show (afterKmalloc freshHeap 100).kheapEnd < 2 ^ 32 by decide +kernel)
  have hexact : Exact (freshHeap, []) (.kmalloc 100 0xd0000014) :=
    ((kheapInit_inv freshHeap_init).exact_iff _).mpr (by decide +kernel)
  exact .step ⟨hexact, htake⟩ (.single ⟨trivial, hfree⟩)

theorem takenFreed_coalesced : Coalesced (kfree (afterKmalloc freshHeap 100) 0xd0000014) :=
  heap_coalesced freshHeap_init takenFreed_run.of_guarded

theorem takenFreed_restored : Restored (kfree (afterKmalloc freshHeap 100) 0xd0000014) :=
  (all_freed_iff freshHeap_init takenFreed_run.of_guarded (by decide +kernel)).mpr takenFreed_run

end FrogKernel.Kheap
