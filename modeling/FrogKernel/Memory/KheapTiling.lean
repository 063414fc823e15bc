import FrogKernel.Memory.KheapBlocks

/-!
# The bytes of the heap

`Tiled h`: each block of the list begins where the one before it ends, the last
one ends at `kheap_end`, and block sizes and headers add up to `kheap_size`.

`kmalloc` cuts a block only when the rest has room for a header and one byte,
but sets `curr->size = size` in any case.  The up to 20 bytes in between then
belong to no block and never come back, so a heap is tiled exactly when no
allocation so far lost any: `tiled_iff`.
-/

namespace FrogKernel.Kheap

open FrogKernel.Bytes FrogKernel.DList FrogKernel.Pmm FrogKernel.Runs

variable {π : Type*}

/-- `bs` are the blocks from `c` on. -/
def Chain (m : Mem) : Nat → List Nat → Prop
  | c, [] => c = 0
  | c, b :: bs => c = b ∧ b ≠ 0 ∧ Chain m (loadBlock m b).next bs

structure Tiled (h : KHeap π) : Prop where
  adjacent : ∀ b, OnList h b → (loadBlock h.mem b).next ≠ 0 →
    (loadBlock h.mem b).next = (loadBlock h.mem b).addr + (loadBlock h.mem b).size
  last : ∀ b, OnList h b → (loadBlock h.mem b).next = 0 →
    (loadBlock h.mem b).addr + (loadBlock h.mem b).size = h.kheapEnd
  total : ∃ bs, Chain h.mem h.head bs ∧
    (bs.map fun b => HEADER + (loadBlock h.mem b).size).sum = h.kheapSize

/-- A block of the list that a request of `size` bytes may take. -/
def Fits (h : KHeap π) (size b : Nat) : Prop :=
  OnList h b ∧ (loadBlock h.mem b).free ≠ 0 ∧ size ≤ (loadBlock h.mem b).size

/-- No request takes a block with 1 to 20 bytes to spare: the lowest block that
fits is used up, or the rest becomes a block. -/
def Exact : KHeap π × List Alloc → HeapEvent → Prop
  | (h, _), .kmalloc size _ => ∀ b, Fits h size b → (∀ c, Fits h size c → b ≤ c) →
      (loadBlock h.mem b).size = size ∨ size + HEADER + 1 ≤ (loadBlock h.mem b).size
  | _, _ => True

/-- `kheap_end` does not wrap around. -/
def NoWrap (s : KHeap π × List Alloc) (e : HeapEvent) : Prop := s.1.kheapEnd + e.gain < 2 ^ 32

/-! ## Tilings -/

theorem Layout.before {lo hi : Nat} {xs ys : List Span} {s : Span}
    (h : Layout lo hi (xs ++ s :: ys)) : Layout lo s.hdr xs := by
  obtain ⟨hxs, -, hcross⟩ := List.pairwise_append.mp h.sorted
  refine ⟨hxs, fun x hx => ⟨(h.inside x (by simp [hx])).1, hcross x hx s (by simp)⟩⟩

theorem Layout.after {lo hi : Nat} {xs ys : List Span} {s : Span}
    (h : Layout lo hi (xs ++ s :: ys)) : Layout s.stop hi ys := by
  have hsub : List.Sublist (s :: ys) (xs ++ s :: ys) := by simp
  exact (h.sublist hsub).tail

theorem Layout.total_le {lo hi : Nat} {spans : List Span} (h : Layout lo hi spans) (hle : lo ≤ hi) :
    lo + total spans ≤ hi := by
  induction spans generalizing lo with
  | nil => simpa using hle
  | cons s spans ih =>
    have hs := h.inside s (by simp)
    have htail := ih h.tail hs.2
    simp only [Span.stop, total_cons] at *
    omega

/-- Blocks that use up all of `[lo, hi)` leave no gap. -/
theorem Layout.no_gap {lo hi : Nat} {xs ys : List Span} {s : Span}
    (h : Layout lo hi (xs ++ s :: ys)) (htotal : lo + total (xs ++ s :: ys) = hi) :
    s.stop = (ys.map Span.hdr).headD hi := by
  have hs := h.inside s (by simp)
  simp only [total_append, total_cons] at htotal
  simp only [Span.stop] at hs
  have hbefore := h.before.total_le hs.1
  cases ys with
  | nil =>
    simp only [total_nil, Span.stop, List.map_nil, List.headD_nil] at *
    omega
  | cons y zs =>
    have hassoc : xs ++ s :: y :: zs = (xs ++ [s]) ++ y :: zs := by simp
    have hy := h.after.inside y (by simp)
    have hafter := (hassoc ▸ h).after.total_le hy.2
    simp only [Span.stop, total_cons, List.map_cons, List.headD_cons] at *
    omega

theorem chain_of_seg {m : Mem} : ∀ {bs : List Nat} {p : Nat}, Seg (prevOf m) (nextOf m) p bs 0 →
    (∀ b ∈ bs, b ≠ 0) → Chain m (bs.headD 0) bs
  | [], _, _, _ => rfl
  | b :: bs, _, ⟨_, hn, htail⟩, hne => by
    have ih := chain_of_seg htail fun x hx => hne x (List.mem_cons_of_mem b hx)
    have hnext : (loadBlock m b).next = bs.headD 0 := hn
    exact ⟨rfl, hne b (by simp), hnext ▸ ih⟩

theorem chain_unique {m : Mem} : ∀ {bs bs' : List Nat} {c : Nat}, Chain m c bs → Chain m c bs' →
    bs = bs'
  | [], [], _, _, _ => rfl
  | [], _ :: _, _, h, ⟨h1, h2, _⟩ => absurd (h1.symm.trans h) h2
  | _ :: _, [], _, ⟨h1, h2, _⟩, h => absurd (h1.symm.trans h) h2
  | b :: bs, b' :: bs', _, ⟨h1, _, h3⟩, ⟨h1', _, h3'⟩ => by
    obtain rfl : b = b' := h1.symm.trans h1'
    rw [chain_unique h3 h3']

theorem HeapInv.chain {h : KHeap π} {spans : List Span} (hinv : HeapInv h spans) :
    Chain h.mem h.head (spans.map Span.hdr) := by
  rw [hinv.head]
  refine chain_of_seg hinv.rep.linked fun b hb => ?_
  obtain ⟨s, hs, rfl⟩ := List.mem_map.mp hb
  exact (hinv.hdr_pos hs).ne'

theorem HeapInv.sum_eq {h : KHeap π} {spans : List Span} (hinv : HeapInv h spans) :
    ((spans.map Span.hdr).map fun b => HEADER + (loadBlock h.mem b).size).sum = total spans := by
  rw [List.map_map, total]
  congr 1
  refine List.map_congr_left fun s hs => ?_
  simp only [Function.comp_apply, (hinv.rep.holds s hs).size]

/-! ## The ledger -/

/-- The heap with all bytes accounted for: `lost` of them are in no block. -/
structure Ledger (h : KHeap π) (live : List Alloc) (spans : List Span) (lost : Nat) : Prop where
  inv : HeapInv h spans
  owned : Owned spans live
  size : h.kheapStart + h.kheapSize = h.kheapEnd
  bytes : h.kheapStart + total spans + lost = h.kheapEnd
  bound : h.kheapEnd < 2 ^ 32

theorem Ledger.tiled_iff_none_lost {h : KHeap π} {live : List Alloc} {spans : List Span} {lost : Nat}
    (hl : Ledger h live spans lost) : Tiled h ↔ lost = 0 := by
  have hsize := hl.size
  have hbytes := hl.bytes
  constructor
  · rintro ⟨-, -, bs, hchain, hsum⟩
    rw [chain_unique hchain hl.inv.chain, hl.inv.sum_eq] at hsum
    omega
  · rintro rfl
    have htotal : h.kheapStart + total spans = h.kheapEnd := hbytes
    have hstop : ∀ b, OnList h b → ∃ ys : List Span, (loadBlock h.mem b).next = (ys.map Span.hdr).headD 0 ∧
        (∀ y ∈ ys, 0 < y.hdr) ∧
        (loadBlock h.mem b).addr + (loadBlock h.mem b).size = (ys.map Span.hdr).headD h.kheapEnd := by
      intro b hb
      obtain ⟨s, hs, rfl⟩ := onList_hdr hl.inv hb
      obtain ⟨xs, ys, rfl⟩ := List.append_of_mem hs
      have hhold := hl.inv.rep.holds s hs
      refine ⟨ys, hl.inv.rep.next_mid, fun y hy => hl.inv.hdr_pos (by simp [hy]), ?_⟩
      rw [hhold.addr, hhold.size, ← hl.inv.layout.no_gap htotal]
      rfl
    refine ⟨fun b hb hne => ?_, fun b hb hnull => ?_, _, hl.inv.chain, ?_⟩
    · obtain ⟨ys, hnext, -, hend⟩ := hstop b hb
      rw [hnext] at hne ⊢
      rw [hend]
      cases ys with
      | nil => exact absurd rfl hne
      | cons y zs => rfl
    · obtain ⟨ys, hnext, hpos, hend⟩ := hstop b hb
      rw [hnext] at hnull
      rw [hend]
      cases ys with
      | nil => rfl
      | cons y zs =>
        have hy := hpos y (by simp)
        have hzero : y.hdr = 0 := hnull
        omega
    · rw [hl.inv.sum_eq]
      omega

/-- Only a page more moves the bounds. -/
theorem heapStep_gain {newPage : π → Nat → Option π} {h h' : KHeap π} {live live' : List Alloc}
    {e : HeapEvent} (hstep : HeapStep newPage (h, live) e (h', live'))
    (hend : h.kheapEnd + e.gain < 2 ^ 32) (hsize : h.kheapSize ≤ h.kheapEnd) :
    h'.kheapStart = h.kheapStart ∧ h'.kheapEnd = h.kheapEnd + e.gain ∧
      h'.kheapSize = h.kheapSize + e.gain := by
  cases e with
  | grow size =>
    obtain ⟨-, hgrow⟩ := hstep.of_grow
    obtain ⟨_, _, -, -, rfl⟩ := growHeap_some hgrow
    simp only [HeapEvent.gain] at hend
    exact ⟨rfl, add32_eq hend, add32_eq (by omega)⟩
  | kmalloc _ _ | kfree _ | write _ =>
    have hsame := heapStep_bounds hstep rfl
    exact ⟨hsame.start, hsame.end_, hsame.size⟩

/-- **Step.**  A step loses the slack of the block it hands out. -/
theorem heapStep_ledger {newPage : π → Nat → Option π} {h h' : KHeap π} {live live' : List Alloc}
    {e : HeapEvent} {spans : List Span} {lost : Nat}
    (hstep : HeapStep newPage (h, live) e (h', live')) (hl : Ledger h live spans lost)
    (hend : h.kheapEnd + e.gain < 2 ^ 32) :
    ∃ spans', Ledger h' live' spans' (lost + slack spans e) := by
  have hsize := hl.size
  have hbytes := hl.bytes
  obtain ⟨hstart', hend', hsize'⟩ := heapStep_gain hstep hend (by omega)
  obtain ⟨spans', hinv', howned', htotal'⟩ := heapStep_inv hstep hend hl.inv hl.owned
  exact ⟨spans', hinv', howned', by omega, by omega, by omega⟩

/-- The block the search takes is the lowest that fits. -/
theorem HeapInv.fits_find {h : KHeap π} {spans : List Span} (hinv : HeapInv h spans) {size : Nat}
    {s : Span} (hfind : spans.find? (fun s => s.free && decide (size ≤ s.size)) = some s) :
    Fits h size s.hdr ∧ ∀ c, Fits h size c → s.hdr ≤ c := by
  obtain ⟨hfit, xs, ys, rfl, hxs⟩ := List.find?_eq_some_iff_append.mp hfind
  obtain ⟨hfree, hsize⟩ : s.free = true ∧ size ≤ s.size := by simpa using hfit
  have hhold := hinv.rep.holds s (by simp)
  refine ⟨⟨onList_of_mem hinv (by simp), hhold.free_iff.mpr hfree, hhold.size ▸ hsize⟩, ?_⟩
  rintro c ⟨hc, hcfree, hcsize⟩
  obtain ⟨t, ht, rfl⟩ := onList_hdr hinv hc
  have hthold := hinv.rep.holds t ht
  rw [hthold.size] at hcsize
  rcases List.mem_append.mp ht with ht | ht
  · have hno := hxs t ht
    simp [hthold.free_iff.mp hcfree, hcsize] at hno
  · rcases List.mem_cons.mp ht with rfl | ht
    · exact Nat.le_refl _
    · have hle := hinv.layout.around.2 t.hdr (mem_hdrs ht)
      simp only [Span.stop] at hle
      omega

theorem HeapInv.exact_iff {h : KHeap π} {live : List Alloc} {spans : List Span}
    (hinv : HeapInv h spans) (e : HeapEvent) : Exact (h, live) e ↔ slack spans e = 0 := by
  cases e with
  | kmalloc size ptr =>
    simp only [Exact, slack]
    cases hfind : spans.find? (fun s => s.free && decide (size ≤ s.size)) with
    | none =>
      refine ⟨fun _ => rfl, fun _ b hb _ => ?_⟩
      obtain ⟨s, hs, rfl⟩ := onList_hdr hinv hb.1
      have hhold := hinv.rep.holds s hs
      have hfit := hb.2.2
      have hno := List.find?_eq_none.mp hfind s hs
      rw [hhold.size] at hfit
      simp [hhold.free_iff.mp hb.2.1, hfit] at hno
    | some s =>
      obtain ⟨hfits, hleast⟩ := hinv.fits_find hfind
      have hhold := hinv.rep.holds s (List.mem_of_find?_eq_some hfind)
      have hsize := hfits.2.2
      rw [hhold.size] at hsize
      simp only
      constructor
      · intro hexact
        have hs := hexact s.hdr hfits hleast
        rw [hhold.size] at hs
        split <;> omega
      · intro hslack b hb hbleast
        obtain rfl : b = s.hdr := Nat.le_antisymm (hbleast s.hdr hfits) (hleast b hb)
        rw [hhold.size]
        split at hslack <;> omega
  | grow size => simp [Exact, slack]
  | kfree ptr => simp [Exact, slack]
  | write ptr => simp [Exact, slack]

theorem kheapInit_ledger {newPage : π → Nat → Option π} {mem : Mem} {pages : π} {h : KHeap π}
    (hinit : kheapInit newPage mem pages = some h) :
    Ledger h [] [⟨KHEAP_VIRT_START, KHEAP_INITIAL_SIZE - HEADER, true⟩] 0 := by
  have hinv := kheapInit_inv hinit
  obtain ⟨pages', -, rfl⟩ := Option.map_eq_some_iff.mp hinit
  exact ⟨hinv, List.Perm.refl _, rfl, rfl,
    show KHEAP_VIRT_START + KHEAP_INITIAL_SIZE < 2 ^ 32 by decide⟩

section

variable {newPage : π → Nat → Option π} {s t : KHeap π × List Alloc} {es : List HeapEvent}

/-- Lost bytes stay lost. -/
theorem ledger_run (hrun : Run (Guarded NoWrap (HeapStep newPage)) s es t) :
    ∀ {spans lost}, Ledger s.1 s.2 spans lost →
      ∃ spans' lost', Ledger t.1 t.2 spans' lost' ∧ lost ≤ lost' := by
  induction hrun with
  | refl => exact fun {spans lost} hl => ⟨spans, lost, hl, Nat.le_refl _⟩
  | step hr _ ih =>
    intro spans lost hl
    obtain ⟨spans', hl'⟩ := heapStep_ledger hr.2 hl hr.1
    obtain ⟨spans'', lost'', hl'', hle⟩ := ih hl'
    exact ⟨spans'', lost'', hl'', by omega⟩

theorem exact_run (hrun : Run (Guarded Exact (Guarded NoWrap (HeapStep newPage))) s es t) :
    ∀ {spans}, Ledger s.1 s.2 spans 0 → ∃ spans', Ledger t.1 t.2 spans' 0 := by
  induction hrun with
  | refl => exact fun {spans} hl => ⟨spans, hl⟩
  | @step s _ _ e _ hr _ ih =>
    intro spans hl
    obtain ⟨spans', hl'⟩ := heapStep_ledger hr.2.2 hl hr.2.1
    rw [(hl.inv.exact_iff e).mp hr.1] at hl'
    exact ih hl'

end

/-- **No byte is lost**, in a run in which `kheap_end` does not wrap around,
exactly when no request took a block with 1 to 20 bytes to spare. -/
theorem tiled_iff {newPage : π → Nat → Option π} {mem : Mem} {pages : π} {h₀ h : KHeap π}
    {es : List HeapEvent} {live : List Alloc} (hinit : kheapInit newPage mem pages = some h₀)
    (hrun : Run (Guarded NoWrap (HeapStep newPage)) (h₀, []) es (h, live)) :
    Tiled h ↔ Run (Guarded Exact (Guarded NoWrap (HeapStep newPage))) (h₀, []) es (h, live) := by
  have hstart := kheapInit_ledger hinit
  constructor
  · intro htiled
    rcases hrun.guarded_or Exact with hexact | ⟨past, e, rest, u, rfl, hpast, hrest, hfail⟩
    · exact hexact
    · -- the first step that loses bytes, and the run after it
      obtain ⟨spans, hl⟩ := exact_run hpast hstart
      obtain ⟨v, hstep, htail⟩ := hrest.of_cons
      obtain ⟨spans', hl'⟩ := heapStep_ledger hstep.2 hl hstep.1
      obtain ⟨_, lost, hlast, hle⟩ := ledger_run htail hl'
      have hzero := hlast.tiled_iff_none_lost.mp htiled
      exact absurd ((hl.inv.exact_iff e).mpr (by omega)) hfail
  · intro hexact
    obtain ⟨_, hl⟩ := exact_run hexact hstart
    exact hl.tiled_iff_none_lost.mpr rfl

/-! ## Two small heaps -/

/-- The heap `kheap_init` leaves. -/
def freshHeap : KHeap Unit :=
  (kheapInit endlessPages (fun _ => 0) ()).getD ⟨fun _ => 0, 0, 0, 0, 0, 0, ()⟩

theorem freshHeap_init : kheapInit endlessPages (fun _ => 0) () = some freshHeap := by
  rw [freshHeap, kheapInit, mapPages_endless]
  rfl

/-- The heap after a call that needs no page more. -/
def afterKmalloc (h : KHeap Unit) (size : Nat) : KHeap Unit :=
  ((kmalloc endlessPages 1 h size).map Prod.snd).getD h

theorem afterKmalloc_step {h : KHeap Unit} {live : List Alloc} (size ptr : Nat)
    (hend : h.kheapEnd < 2 ^ 32)
    (hcall : (kmalloc endlessPages 1 h size).map Prod.fst = some ptr) :
    Guarded NoWrap (HeapStep endlessPages) (h, live) (.kmalloc size ptr)
      (afterKmalloc h size, ⟨ptr, size⟩ :: live) := by
  obtain ⟨⟨ptr', h'⟩, hk, hptr⟩ := Option.map_eq_some_iff.mp hcall
  obtain rfl : ptr' = ptr := hptr
  obtain ⟨curr, hsearch, hrest⟩ := Option.bind_eq_some_iff.mp hk
  refine ⟨hend, ?_⟩
  rw [afterKmalloc, hk]
  split at hrest
  case isTrue hcurr => exact .kmalloc hsearch hcurr hrest
  case isFalse => simp [kmalloc] at hrest

theorem kfree_step {h : KHeap Unit} {live : List Alloc} {a : Alloc} (ha : a ∈ live)
    (hend : h.kheapEnd < 2 ^ 32) :
    Guarded NoWrap (HeapStep endlessPages) (h, live) (.kfree a.ptr) (kfree h a.ptr, live.erase a) :=
  ⟨hend, .kfree ha⟩

/-- `kmalloc(100)` on a new heap leaves the rest as one block. -/
theorem oneAllocation_tiled : Tiled (afterKmalloc freshHeap 100) := by
  have hstep : Guarded NoWrap (HeapStep endlessPages) (freshHeap, []) (.kmalloc 100 0xd0000014)
      (afterKmalloc freshHeap 100, [⟨0xd0000014, 100⟩]) :=
    afterKmalloc_step 100 0xd0000014 (by decide +kernel) (by decide +kernel)
  have hexact : Exact (freshHeap, []) (.kmalloc 100 0xd0000014) :=
    ((kheapInit_inv freshHeap_init).exact_iff _).mpr (by decide +kernel)
  exact (tiled_iff freshHeap_init (Run.single hstep)).mpr (Run.single ⟨hexact, hstep⟩)

/-- Two blocks of 100 bytes. -/
def twoBlocks : KHeap Unit := afterKmalloc (afterKmalloc freshHeap 100) 100

/-- The first of them freed and taken again for 90 bytes. -/
def reusedHeap : KHeap Unit := afterKmalloc (kfree twoBlocks 0xd0000014) 90

theorem reusedHeap_run : ∃ live, Run (Guarded NoWrap (HeapStep endlessPages)) (freshHeap, [])
    [.kmalloc 100 0xd0000014, .kmalloc 100 0xd000008c, .kfree 0xd0000014, .kmalloc 90 0xd0000014]
    (reusedHeap, live) := by
  have hmem : (⟨0xd0000014, 100⟩ : Alloc) ∈ [⟨0xd000008c, 100⟩, (⟨0xd0000014, 100⟩ : Alloc)] :=
    List.mem_cons_of_mem _ List.mem_cons_self
  refine ⟨_, .step (afterKmalloc_step _ _ ?_ ?_) (.step (afterKmalloc_step _ _ ?_ ?_)
    (.step (kfree_step hmem ?_) (.single (afterKmalloc_step _ _ ?_ ?_))))⟩
  all_goals decide +kernel

/-- The ten bytes after the 90 are lost: the next header is where it was. -/
theorem reusedHeap_notTiled :
    (∃ live, Run (Guarded NoWrap (HeapStep endlessPages)) (freshHeap, [])
      [.kmalloc 100 0xd0000014, .kmalloc 100 0xd000008c, .kfree 0xd0000014, .kmalloc 90 0xd0000014]
      (reusedHeap, live)) ∧ ¬ Tiled reusedHeap := by
  refine ⟨reusedHeap_run, fun htiled => ?_⟩
  have hhead : OnList reusedHeap reusedHeap.head := .head (by decide +kernel)
  have hgap : ¬ ((loadBlock reusedHeap.mem reusedHeap.head).next =
      (loadBlock reusedHeap.mem reusedHeap.head).addr +
        (loadBlock reusedHeap.mem reusedHeap.head).size) := by decide +kernel
  exact hgap (htiled.adjacent _ hhead (by decide +kernel))

end FrogKernel.Kheap
