import Mathlib.Data.List.Basic
import Mathlib.Logic.Function.Basic
import Mathlib.Algebra.Order.Ring.Nat
import FrogKernel.Memory.Kheap

/-!
# The block list of the heap

A heap is described by its blocks in list order, as spans of addresses.
`Rep m spans` says that the bytes `m` hold these blocks, linked both ways;
`Layout lo hi spans` that the spans follow each other inside `[lo, hi)`.

Each piece of `kmalloc` and `kfree` is shown to be one edit of the span list:
`takeBlock_rep`, `growHeap_rep` and `kfree_rep`.
-/

namespace FrogKernel.Kheap

open FrogKernel.Bytes FrogKernel.DList FrogKernel.Pmm

/-- A block: its header at `hdr`, then `size` bytes. -/
structure Span where
  hdr : Nat
  size : Nat
  free : Bool
  deriving DecidableEq

def Span.stop (s : Span) : Nat := s.hdr + HEADER + s.size

/-- The header of `s` is in memory; its links are left open. -/
structure Holds (m : Mem) (s : Span) : Prop where
  addr : (loadBlock m s.hdr).addr = s.hdr + HEADER
  size : (loadBlock m s.hdr).size = s.size
  free : (loadBlock m s.hdr).free = s.free.toNat

structure Rep (m : Mem) (spans : List Span) : Prop where
  linked : Seg (prevOf m) (nextOf m) 0 (spans.map Span.hdr) 0
  holds : ∀ s ∈ spans, Holds m s

structure Layout (lo hi : Nat) (spans : List Span) : Prop where
  sorted : spans.Pairwise (fun s t => s.stop ≤ t.hdr)
  inside : ∀ s ∈ spans, lo ≤ s.hdr ∧ s.stop ≤ hi

/-- The first block that meets `p`, or `NULL`. -/
def firstHdr (p : Span → Bool) (spans : List Span) : Nat := ((spans.find? p).map Span.hdr).getD 0

/-! ## Layouts -/

/-- Blocks may be replaced by others inside the room they took. -/
theorem Layout.replace {lo hi : Nat} {xs mid ys : List Span} (mid' : List Span)
    (h : Layout lo hi (xs ++ mid ++ ys)) (hsorted : mid'.Pairwise (fun s t => s.stop ≤ t.hdr))
    (hlo : ∀ t ∈ mid', ∃ s ∈ mid, s.hdr ≤ t.hdr) (hhi : ∀ t ∈ mid', ∃ s ∈ mid, t.stop ≤ s.stop) :
    Layout lo hi (xs ++ mid' ++ ys) := by
  obtain ⟨hxm, hys, hcross⟩ := List.pairwise_append.mp h.sorted
  obtain ⟨hxs, -, hxm⟩ := List.pairwise_append.mp hxm
  constructor
  · refine List.pairwise_append.mpr ⟨List.pairwise_append.mpr ⟨hxs, hsorted, ?_⟩, hys, ?_⟩
    · intro x hx t ht
      obtain ⟨s, hs, hle⟩ := hlo t ht
      exact (hxm x hx s hs).trans hle
    · intro t ht y hy
      rcases List.mem_append.mp ht with ht | ht
      · exact hcross t (List.mem_append_left mid ht) y hy
      · obtain ⟨s, hs, hle⟩ := hhi t ht
        exact hle.trans (hcross s (List.mem_append_right xs hs) y hy)
  · intro t ht
    rcases List.mem_append.mp ht with ht | ht
    · rcases List.mem_append.mp ht with ht | ht
      · exact h.inside t (by simp [ht])
      · obtain ⟨s, hs, hle⟩ := hlo t ht
        obtain ⟨s', hs', hle'⟩ := hhi t ht
        exact ⟨(h.inside s (by simp [hs])).1.trans hle, hle'.trans (h.inside s' (by simp [hs'])).2⟩
    · exact h.inside t (by simp [ht])

theorem Layout.tail {lo hi : Nat} {s : Span} {spans : List Span} (h : Layout lo hi (s :: spans)) :
    Layout s.stop hi spans :=
  ⟨(List.pairwise_cons.mp h.sorted).2, fun t ht =>
    ⟨(List.pairwise_cons.mp h.sorted).1 t ht, (h.inside t (List.mem_cons_of_mem s ht)).2⟩⟩

theorem Layout.length_le {lo hi : Nat} {spans : List Span} (h : Layout lo hi spans) (hle : lo ≤ hi) :
    lo + HEADER * spans.length ≤ hi := by
  induction spans generalizing lo with
  | nil => simpa using hle
  | cons s spans ih =>
    have hs := h.inside s (by simp)
    have htail := ih h.tail hs.2
    simp only [Span.stop, HEADER, List.length_cons] at *
    omega

/-- Two blocks are the same, or one ends before the other starts. -/
theorem Layout.order {lo hi : Nat} {spans : List Span} (h : Layout lo hi spans) {s t : Span}
    (hs : s ∈ spans) (ht : t ∈ spans) : s = t ∨ s.stop ≤ t.hdr ∨ t.stop ≤ s.hdr :=
  List.Pairwise.forall_of_forall_of_flip
    (R := fun s t => s = t ∨ s.stop ≤ t.hdr ∨ t.stop ≤ s.hdr) (fun _ _ => Or.inl rfl)
    (h.sorted.imp fun hst => Or.inr (Or.inl hst)) (h.sorted.imp fun hst => Or.inr (Or.inr hst))
    hs ht

/-! ## Views of the headers -/

/-- Any two headers of `S` are the same or apart. -/
def Separate (S : Nat → Prop) : Prop := ∀ x y, S x → S y → x = y ∨ Apart x y

/-- On the headers of `S`, memory shows the blocks `f`. -/
def Shows (m : Mem) (S : Nat → Prop) (f : Nat → KHeapBlock) : Prop := ∀ x, S x → loadBlock m x = f x

section Shows

variable {m : Mem} {S : Nat → Prop} {f : Nat → KHeapBlock} {b v : Nat}

theorem Shows.setAddr (hS : Separate S) (h : Shows m S f) (hb : S b) (hv : v < 2 ^ 32) :
    Shows (setAddr m b v) S (Function.update f b { f b with addr := v }) := by
  intro x hx
  rw [loadBlock_setAddr (hS x b hx hb) hv, Function.update_apply, h b hb, h x hx]

theorem Shows.setSize (hS : Separate S) (h : Shows m S f) (hb : S b) (hv : v < 2 ^ 32) :
    Shows (setSize m b v) S (Function.update f b { f b with size := v }) := by
  intro x hx
  rw [loadBlock_setSize (hS x b hx hb) hv, Function.update_apply, h b hb, h x hx]

theorem Shows.setFree (hS : Separate S) (h : Shows m S f) (hb : S b) (hv : v < 2 ^ 8) :
    Shows (setFree m b v) S (Function.update f b { f b with free := v }) := by
  intro x hx
  rw [loadBlock_setFree (hS x b hx hb) hv, Function.update_apply, h b hb, h x hx]

theorem Shows.setPrev (hS : Separate S) (h : Shows m S f) (hb : S b) (hv : v < 2 ^ 32) :
    Shows (setPrev m b v) S (Function.update f b { f b with prev := v }) := by
  intro x hx
  rw [loadBlock_setPrev (hS x b hx hb) hv, Function.update_apply, h b hb, h x hx]

theorem Shows.setNext (hS : Separate S) (h : Shows m S f) (hb : S b) (hv : v < 2 ^ 32) :
    Shows (setNext m b v) S (Function.update f b { f b with next := v }) := by
  intro x hx
  rw [loadBlock_setNext (hS x b hx hb) hv, Function.update_apply, h b hb, h x hx]

end Shows

theorem add32_eq {a b : Nat} (h : a + b < 2 ^ 32) : add32 a b = a + b := Nat.mod_eq_of_lt h

theorem sub32_eq {a b : Nat} (h : b ≤ a) (ha : a < 2 ^ 32) : sub32 a b = a - b := by
  unfold sub32
  omega

theorem nextOf_lt (m : Mem) (b : Nat) : (loadBlock m b).next < 2 ^ 32 := readN_lt m 4 (b + 16)

section Edits

variable {m : Mem} {S : Nat → Prop} {f : Nat → KHeapBlock}

/-- The edit that both halves of `kfree` make: `b` becomes part of `a`. -/
def mergeBlocks (m : Mem) (a b : Nat) : Mem :=
  let m := setSize m a (add32 (loadBlock m a).size (add32 HEADER (loadBlock m b).size))
  let m := setNext m a (loadBlock m b).next
  if (loadBlock m b).next ≠ 0 then setPrev m (loadBlock m b).next a else m

/-- The blocks after `mergeBlocks`. -/
def merged (f : Nat → KHeapBlock) (a b : Nat) : Nat → KHeapBlock :=
  fun x =>
    if x = a then { f a with size := (f a).size + (HEADER + (f b).size), next := (f b).next }
    else if x = (f b).next ∧ x ≠ 0 then { f x with prev := a }
    else f x

theorem mergeBlocks_shows {a b : Nat} (hS : Separate S) (h : Shows m S f) (ha : S a) (hb : S b)
    (hab : b ≠ a) (hlt : a < 2 ^ 32) (hsize : (f a).size + (HEADER + (f b).size) < 2 ^ 32)
    (hnext : (f b).next < 2 ^ 32) (hn : (f b).next ≠ 0 → S (f b).next ∧ (f b).next ≠ a) :
    Shows (mergeBlocks m a b) S (merged f a b) := by
  have hv : add32 (loadBlock m a).size (add32 HEADER (loadBlock m b).size) =
      (f a).size + (HEADER + (f b).size) := by
    rw [h a ha, h b hb, add32_eq (b := (f b).size) (by omega), add32_eq hsize]
  have h1 := h.setSize hS ha hsize
  have hb1 : loadBlock (setSize m a ((f a).size + (HEADER + (f b).size))) b = f b := by
    rw [h1 b hb, Function.update_of_ne hab]
  have h2 := h1.setNext hS ha hnext
  have hb2 := h2 b hb
  rw [Function.update_of_ne hab, Function.update_of_ne hab] at hb2
  simp only [mergeBlocks, hv, hb1, hb2]
  split
  case isTrue hne =>
    intro x hx
    rw [h2.setPrev hS (hn hne).1 hlt x hx]
    simp only [merged, Function.update_apply, (hn hne).2, ↓reduceIte]
    by_cases hxa : x = a
    · simp [hxa, (hn hne).2.symm]
    · by_cases hxn : x = (f b).next
      · simp [hxn, hne, (hn hne).2]
      · simp [hxa, hxn]
  case isFalse hne =>
    intro x hx
    rw [h2 x hx]
    simp only [merged, Function.update_apply, ↓reduceIte]
    by_cases hxa : x = a
    · simp [hxa]
    · have hxn : ¬ (x = (f b).next ∧ x ≠ 0) := fun hc => hne (hc.1 ▸ hc.2)
      simp [hxa, hxn]

/-- The blocks after `splitBlock`. -/
def splitted (f : Nat → KHeapBlock) (c n size : Nat) : Nat → KHeapBlock :=
  fun x =>
    if x = n then
      { addr := n + HEADER, size := (f c).size - size - HEADER, free := 1, prev := c
        next := (f c).next }
    else if x = c then { f c with next := n }
    else if x = (f c).next ∧ x ≠ 0 then { f x with prev := n }
    else f x

theorem splitBlock_shows {c n : Nat} (size : Nat) (hS : Separate S) (h : Shows m S f) (hc : S c)
    (hn : S n) (hcn : c ≠ n) (haddr : (f c).addr + size = n) (hnlt : n + HEADER < 2 ^ 32)
    (hclt : c < 2 ^ 32) (hsize : size + HEADER ≤ (f c).size) (hslt : (f c).size < 2 ^ 32)
    (hnextlt : (f c).next < 2 ^ 32)
    (hnext : (f c).next ≠ 0 → S (f c).next ∧ (f c).next ≠ n ∧ (f c).next ≠ c) :
    Shows (splitBlock m c size) S (splitted f c n size) := by
  have hnew : add32 (loadBlock m c).addr size = n := by
    rw [h c hc, add32_eq (by omega), haddr]
  have h1 := h.setAddr hS hn hnlt
  have h2 := h1.setSize hS hn (v := (f c).size - size - HEADER) (by omega)
  have h3 := h2.setFree hS hn (v := 1) (by decide)
  have h4 := h3.setPrev hS hn hclt
  have h5 := h4.setNext hS hn hnextlt
  have hc1 := h1 c hc
  have hc4 := h4 c hc
  have hc5 := h5 c hc
  simp only [Function.update_of_ne hcn] at hc1 hc4 hc5
  have hv1 : add32 n HEADER = n + HEADER := add32_eq hnlt
  have hv2 : sub32 (sub32 (f c).size size) HEADER = (f c).size - size - HEADER := by
    rw [sub32_eq (by omega) hslt, sub32_eq (by omega) (by omega)]
  simp only [splitBlock, hnew, hv1, hc1, hv2, hc4, hc5]
  simp only [Function.update_idem, Function.update_self] at h5
  split
  case isTrue hne =>
    have h6 := h5.setPrev hS (hnext hne).1 (v := n) (by omega)
    intro x hx
    rw [h6.setNext hS hc (v := n) (by omega) x hx]
    simp only [splitted, Function.update_apply, (hnext hne).2.1, (hnext hne).2.2.symm, hcn,
      ↓reduceIte]
    by_cases hxc : x = c
    · simp [hxc, hcn]
    · by_cases hxn : x = n
      · simp [hxn, hcn.symm, (hnext hne).2.1.symm]
      · by_cases hxf : x = (f c).next
        · simp [hxf, hne, (hnext hne).2.1, (hnext hne).2.2]
        · simp [hxc, hxn, hxf]
  case isFalse hne =>
    intro x hx
    rw [h5.setNext hS hc (v := n) (by omega) x hx]
    simp only [splitted, Function.update_apply, hcn, ↓reduceIte]
    by_cases hxc : x = c
    · simp [hxc, hcn]
    · by_cases hxn : x = n
      · simp [hxn, hcn.symm]
      · have hxf : ¬ (x = (f c).next ∧ x ≠ 0) := fun hc => hne (hc.1 ▸ hc.2)
        simp [hxc, hxn, hxf]

end Edits

/-! ## Edits of the list -/

def Hdrs (spans : List Span) (x : Nat) : Prop := x ∈ spans.map Span.hdr

theorem mem_hdrs {spans : List Span} {s : Span} (hs : s ∈ spans) : Hdrs spans s.hdr :=
  List.mem_map_of_mem hs

theorem hdrs_mono {spans spans' : List Span} {x : Nat} (hsub : spans ⊆ spans')
    (hx : Hdrs spans x) : Hdrs spans' x :=
  List.map_subset Span.hdr hsub hx

theorem Layout.separate {lo hi : Nat} {spans : List Span} (h : Layout lo hi spans) :
    Separate (Hdrs spans) := by
  intro x y hx hy
  obtain ⟨s, hs, rfl⟩ := List.mem_map.mp hx
  obtain ⟨t, ht, rfl⟩ := List.mem_map.mp hy
  rcases h.order hs ht with rfl | hst | hst
  · exact Or.inl rfl
  · exact Or.inr (Or.inl (by simp only [Span.stop] at hst; omega))
  · exact Or.inr (Or.inr (by simp only [Span.stop] at hst; omega))

/-- The blocks before and after a block lie below and above it. -/
theorem Layout.around {lo hi : Nat} {xs ys : List Span} {s : Span}
    (h : Layout lo hi (xs ++ s :: ys)) :
    (∀ x ∈ xs.map Span.hdr, x < s.hdr) ∧ (∀ y ∈ ys.map Span.hdr, s.stop ≤ y) := by
  obtain ⟨-, hys, hcross⟩ := List.pairwise_append.mp h.sorted
  constructor
  · intro x hx
    obtain ⟨t, ht, rfl⟩ := List.mem_map.mp hx
    have hle := hcross t ht s (by simp)
    simp only [Span.stop, HEADER] at hle
    omega
  · intro y hy
    obtain ⟨t, ht, rfl⟩ := List.mem_map.mp hy
    exact (List.pairwise_cons.mp hys).1 t ht

/-- The link out of a part of the list: `NULL`, or the first block after it. -/
theorem headD_hdr (ys : List Span) :
    (ys.map Span.hdr).headD 0 = 0 ∧ ys = [] ∨ ∃ y zs, ys = y :: zs ∧ (ys.map Span.hdr).headD 0 = y.hdr := by
  cases ys with
  | nil => exact Or.inl ⟨rfl, rfl⟩
  | cons y zs => exact Or.inr ⟨y, zs, rfl, rfl⟩

theorem Holds.congr {m m' : Mem} {s : Span} (h : Holds m s)
    (haddr : (loadBlock m' s.hdr).addr = (loadBlock m s.hdr).addr)
    (hsize : (loadBlock m' s.hdr).size = (loadBlock m s.hdr).size)
    (hfree : (loadBlock m' s.hdr).free = (loadBlock m s.hdr).free) : Holds m' s :=
  ⟨haddr.trans h.addr, hsize.trans h.size, hfree.trans h.free⟩

theorem Rep.congr {m m' : Mem} {spans : List Span} (h : Rep m spans)
    (heq : ∀ x, Hdrs spans x → loadBlock m' x = loadBlock m x) : Rep m' spans := by
  constructor
  · exact seg_congr (fun x hx => by rw [prevOf, prevOf, heq x hx])
      (fun x hx => by rw [nextOf, nextOf, heq x hx]) h.linked
  · intro s hs
    have hs' := heq s.hdr (mem_hdrs hs)
    exact (h.holds s hs).congr (by rw [hs']) (by rw [hs']) (by rw [hs'])

theorem Rep.next_mid {m : Mem} {xs ys : List Span} {s : Span} (h : Rep m (xs ++ s :: ys)) :
    (loadBlock m s.hdr).next = (ys.map Span.hdr).headD 0 := by
  have hseg := h.linked
  rw [List.map_append, List.map_cons] at hseg
  have hnext := seg_next_mid hseg
  exact hnext

theorem Rep.prev_mid {m : Mem} {xs ys : List Span} {s : Span} (h : Rep m (xs ++ s :: ys)) :
    (loadBlock m s.hdr).prev = (xs.map Span.hdr).getLastD 0 := by
  have hseg := h.linked
  rw [List.map_append, List.map_cons] at hseg
  have hprev := seg_prev_mid hseg
  exact hprev

theorem Layout.sublist {lo hi : Nat} {xs ys : List Span} (h : Layout lo hi ys)
    (hsub : List.Sublist xs ys) : Layout lo hi xs :=
  ⟨h.sorted.sublist hsub, fun s hs => h.inside s (hsub.subset hs)⟩

/-- Of the blocks in `xs` and `ys` only the first of `ys` is written, and only
its back link. -/
structure Relinked (m m' : Mem) (xs ys : List Span) (q : Nat) : Prop where
  before : ∀ x, Hdrs xs x → loadBlock m' x = loadBlock m x
  first : ∀ y ∈ (ys.map Span.hdr).head?, loadBlock m' y = { loadBlock m y with prev := q }
  rest : ∀ y ∈ (ys.map Span.hdr).tail, loadBlock m' y = loadBlock m y

/-- That is what `if (n != NULL) n->prev = q` does for the link `n` out of `xs`. -/
theorem relinked_of {m m' : Mem} {lo hi q : Nat} {xs ys : List Span}
    (hlay : Layout lo hi (xs ++ ys)) (hlo : 0 < lo)
    (hm' : ∀ x, Hdrs (xs ++ ys) x → loadBlock m' x =
      if x = (ys.map Span.hdr).headD 0 ∧ x ≠ 0 then { loadBlock m x with prev := q }
      else loadBlock m x) : Relinked m m' xs ys q := by
  rcases headD_hdr ys with ⟨hn, rfl⟩ | ⟨y, zs, rfl, hn⟩
  · refine ⟨fun x hx => ?_, fun y hy => by simp at hy, fun y hy => by simp at hy⟩
    rw [hm' x (by simpa using hx), if_neg]
    exact fun hc => hc.2 (hc.1.trans hn)
  · rw [hn] at hm'
    have hy := hlay.inside y (by simp)
    obtain ⟨hxs, hzs⟩ := hlay.around
    refine ⟨fun x hx => ?_, fun x hx => ?_, fun x hx => ?_⟩
    · have hlt := hxs x hx
      rw [hm' x (hdrs_mono (by simp) hx), if_neg (by omega)]
    · obtain rfl : y.hdr = x := by simpa using hx
      rw [hm' y.hdr (mem_hdrs (by simp)), if_pos ⟨rfl, by omega⟩]
    · have hmem : x ∈ zs.map Span.hdr := by simpa using hx
      have hle := hzs x hmem
      simp only [Span.stop, HEADER] at hle
      rw [hm' x (hdrs_mono (by simp) hmem), if_neg (by omega)]

section Relinked

variable {m m' : Mem} {xs ys : List Span} {q : Nat}

theorem Relinked.after (h : Relinked m m' xs ys q) {y : Nat} (hy : Hdrs ys y) :
    ∃ p, loadBlock m' y = { loadBlock m y with prev := p } := by
  cases ys with
  | nil => simp [Hdrs] at hy
  | cons z zs =>
    rcases List.mem_cons.mp hy with rfl | hy
    · exact ⟨q, h.first z.hdr (by simp)⟩
    · exact ⟨_, h.rest y hy⟩

theorem Relinked.nextOf (h : Relinked m m' xs ys q) :
    ∀ x ∈ xs.map Span.hdr ++ ys.map Span.hdr, nextOf m' x = nextOf m x := by
  intro x hx
  rcases List.mem_append.mp hx with hx | hx
  · rw [Kheap.nextOf, Kheap.nextOf, h.before x hx]
  · obtain ⟨p, hp⟩ := h.after hx
    rw [Kheap.nextOf, Kheap.nextOf, hp]

theorem Relinked.holds (h : Relinked m m' xs ys q) {s : Span} (hs : s ∈ xs ∨ s ∈ ys)
    (hold : Holds m s) : Holds m' s := by
  rcases hs with hs | hs
  · have heq := h.before s.hdr (mem_hdrs hs)
    exact hold.congr (by rw [heq]) (by rw [heq]) (by rw [heq])
  · obtain ⟨p, hp⟩ := h.after (mem_hdrs hs)
    exact hold.congr (by rw [hp]) (by rw [hp]) (by rw [hp])

end Relinked

theorem mergeBlocks_rep {m : Mem} {lo hi : Nat} {xs ys : List Span} {a b : Span}
    (h : Rep m (xs ++ a :: b :: ys)) (hlay : Layout lo hi (xs ++ a :: b :: ys)) (hlo : 0 < lo)
    (hhi : hi ≤ 2 ^ 32) :
    Rep (mergeBlocks m a.hdr b.hdr)
      (xs ++ { a with size := a.size + (HEADER + b.size) } :: ys) := by
  have hA := h.holds a (by simp)
  have hB := h.holds b (by simp)
  have hina := hlay.inside a (by simp)
  have hinb := hlay.inside b (by simp)
  have hassoc : xs ++ a :: b :: ys = (xs ++ [a]) ++ b :: ys := by simp
  obtain ⟨hxa, hafter⟩ := hlay.around
  have hab : a.stop ≤ b.hdr := hafter b.hdr (by simp)
  have hby : ∀ y ∈ ys.map Span.hdr, b.stop ≤ y := (hassoc ▸ hlay).around.2
  have hnext : (loadBlock m b.hdr).next = (ys.map Span.hdr).headD 0 := (hassoc ▸ h).next_mid
  simp only [Span.stop, HEADER] at hab hina hinb hby
  have hshows := mergeBlocks_shows (f := loadBlock m) hlay.separate (fun _ _ => rfl)
    (mem_hdrs (s := a) (by simp)) (mem_hdrs (s := b) (by simp)) (by omega) (by omega)
    (by rw [hA.size, hB.size, HEADER]; omega)
    (nextOf_lt m _)
    (by
      rw [hnext]
      rcases headD_hdr ys with ⟨hn, -⟩ | ⟨y, zs, rfl, hn⟩
      · omega
      · have hy := hby y.hdr (by simp)
        exact fun _ => ⟨hn ▸ mem_hdrs (by simp), by omega⟩)
  have hself := hshows a.hdr (mem_hdrs (by simp))
  rw [merged, if_pos rfl, hA.size, hB.size] at hself
  have hre : Relinked m (mergeBlocks m a.hdr b.hdr) xs ys a.hdr := by
    have hsub : List.Sublist (xs ++ ys) (xs ++ a :: b :: ys) := by simp
    refine relinked_of (hlay.sublist hsub) hlo fun x hx => ?_
    have hmem := hdrs_mono hsub.subset hx
    have hne : x ≠ a.hdr := by
      simp only [Hdrs, List.map_append, List.mem_append] at hx
      rcases hx with hx | hx
      · exact (hxa x hx).ne
      · have hle := hby x hx
        omega
    rw [hshows x hmem, merged, if_neg hne, hnext]
  have hseg := h.linked
  rw [List.map_append, List.map_cons, List.map_cons] at hseg
  constructor
  · rw [List.map_append, List.map_cons]
    refine seg_remove hseg hre.nextOf ?_ ?_ ?_
    · intro x hx
      simp only [List.mem_append, List.mem_cons] at hx
      rcases hx with hx | rfl | hx
      · rw [prevOf, prevOf, hre.before x hx]
      · rw [prevOf, prevOf, hself]
      · rw [prevOf, prevOf, hre.rest x hx]
    · rw [nextOf, hself, nextOf]
    · intro y hy
      rw [prevOf, hre.first y hy]
  · intro s hs
    rcases List.mem_append.mp hs with hs | hs
    · exact hre.holds (Or.inl hs) (h.holds s (by simp [hs]))
    · rcases List.mem_cons.mp hs with rfl | hs
      · exact ⟨by rw [hself]; exact hA.addr, by rw [hself], by rw [hself]; exact hA.free⟩
      · exact hre.holds (Or.inr hs) (h.holds s (by simp [hs]))

/-- A write to the size and the free flag of one block. -/
theorem Rep.reset {m m' : Mem} {xs ys : List Span} {s s' : Span} (h : Rep m (xs ++ s :: ys))
    (hdr : s'.hdr = s.hdr)
    (hself : loadBlock m' s.hdr =
      { loadBlock m s.hdr with size := s'.size, free := s'.free.toNat })
    (hother : ∀ x, Hdrs (xs ++ ys) x → loadBlock m' x = loadBlock m x) :
    Rep m' (xs ++ s' :: ys) := by
  have hmap : (xs ++ s' :: ys).map Span.hdr = (xs ++ s :: ys).map Span.hdr := by simp [hdr]
  have hlink : ∀ x ∈ (xs ++ s :: ys).map Span.hdr, prevOf m' x = prevOf m x ∧ nextOf m' x = nextOf m x := by
    intro x hx
    by_cases hxs : x = s.hdr
    · simp [prevOf, nextOf, hxs, hself]
    · have hmem : Hdrs (xs ++ ys) x := by
        simp only [Hdrs, List.map_append, List.map_cons, List.mem_append, List.mem_cons] at hx ⊢
        rcases hx with hx | hx | hx
        · exact Or.inl hx
        · exact absurd hx hxs
        · exact Or.inr hx
      simp [prevOf, nextOf, hother x hmem]
  constructor
  · rw [hmap]
    exact seg_congr (fun x hx => (hlink x hx).1) (fun x hx => (hlink x hx).2) h.linked
  · intro t ht
    rcases List.mem_append.mp ht with ht | ht
    · have heq := hother t.hdr (mem_hdrs (by simp [ht]))
      exact (h.holds t (by simp [ht])).congr (by rw [heq]) (by rw [heq]) (by rw [heq])
    · rcases List.mem_cons.mp ht with rfl | ht
      · have hs := (h.holds s (by simp)).addr
        exact ⟨by rw [hdr, hself, hs], by rw [hdr, hself], by rw [hdr, hself]⟩
      · have heq := hother t.hdr (mem_hdrs (by simp [ht]))
        exact (h.holds t (by simp [ht])).congr (by rw [heq]) (by rw [heq]) (by rw [heq])

/-- The headers of the blocks around one block are not its own. -/
theorem Layout.others_ne {lo hi x : Nat} {xs ys : List Span} {s : Span}
    (h : Layout lo hi (xs ++ s :: ys)) (hx : Hdrs (xs ++ ys) x) : x ≠ s.hdr := by
  simp only [Hdrs, List.map_append, List.mem_append] at hx
  rcases hx with hx | hx
  · exact (h.around.1 x hx).ne
  · have hle := h.around.2 x hx
    simp only [Span.stop, HEADER] at hle
    omega

/-- What a block of which `size` bytes are taken becomes. -/
def takeSpans (s : Span) (size : Nat) : List Span :=
  if size + HEADER + 1 ≤ s.size then
    [⟨s.hdr, size, false⟩, ⟨s.hdr + HEADER + size, s.size - size - HEADER, true⟩]
  else [⟨s.hdr, size, false⟩]

theorem Layout.take {lo hi : Nat} {xs ys : List Span} {s : Span} (size : Nat)
    (h : Layout lo hi (xs ++ s :: ys)) (hsize : size ≤ s.size) :
    Layout lo hi (xs ++ takeSpans s size ++ ys) := by
  have hmid : Layout lo hi (xs ++ [s] ++ ys) := by simpa using h
  unfold takeSpans
  split
  · refine Layout.replace _ hmid ?_ ?_ ?_
    · simp [Span.stop]
    · simp only [List.mem_cons, List.not_mem_nil, or_false, exists_eq_left]
      rintro t (rfl | rfl)
      · exact Nat.le_refl _
      · simp only [HEADER]; omega
    · simp only [List.mem_cons, List.not_mem_nil, or_false, exists_eq_left, Span.stop, HEADER] at *
      rintro t (rfl | rfl)
      · simp only; omega
      · simp only; omega
  · refine Layout.replace _ hmid (by simp) (by simp) ?_
    simp only [List.mem_cons, List.not_mem_nil, or_false, exists_eq_left, forall_eq, Span.stop]
    omega

theorem splitBlock_rep {m : Mem} {lo hi size : Nat} {xs ys : List Span} {s : Span}
    (h : Rep m (xs ++ s :: ys)) (hlay : Layout lo hi (xs ++ s :: ys)) (hlo : 0 < lo)
    (hhi : hi ≤ 2 ^ 32) (hsize : size + HEADER + 1 ≤ s.size) :
    Rep (splitBlock m s.hdr size)
      (xs ++ s :: ⟨s.hdr + HEADER + size, s.size - size - HEADER, true⟩ :: ys) := by
  have hS := h.holds s (by simp)
  have hin := hlay.inside s (by simp)
  have hnext := h.next_mid
  have hlay' := hlay.take size (by simp only [HEADER] at hsize; omega)
  rw [takeSpans, if_pos hsize, List.append_assoc, List.cons_append, List.cons_append,
    List.nil_append] at hlay'
  obtain ⟨hxs, hys⟩ := hlay.around
  simp only [Span.stop, HEADER] at hin hsize hys
  have hn : s.hdr + HEADER + size + HEADER < 2 ^ 32 := by simp only [HEADER]; omega
  have hshows := splitBlock_shows (f := loadBlock m) (c := s.hdr) (n := s.hdr + HEADER + size) size
    hlay'.separate (fun _ _ => rfl) (mem_hdrs (s := ⟨s.hdr, size, false⟩) (by simp))
    (mem_hdrs (s := ⟨s.hdr + HEADER + size, s.size - size - HEADER, true⟩) (by simp))
    (by simp only [HEADER]; omega) (by rw [hS.addr]) hn (by omega)
    (by rw [hS.size, HEADER]; omega) (by rw [hS.size]; omega)
    (nextOf_lt m _)
    (by
      rw [hnext]
      rcases headD_hdr ys with ⟨hn, -⟩ | ⟨y, zs, rfl, hn⟩
      · omega
      · have hy := hys y.hdr (by simp)
        exact fun _ => ⟨hn ▸ mem_hdrs (by simp), by rw [hn]; simp only [HEADER]; omega, by omega⟩)
  have hcn : s.hdr ≠ s.hdr + HEADER + size := by simp only [HEADER]; omega
  have hself := hshows s.hdr (mem_hdrs (s := ⟨s.hdr, size, false⟩) (by simp))
  rw [splitted, if_neg hcn, if_pos rfl] at hself
  have hnew := hshows (s.hdr + HEADER + size)
    (mem_hdrs (s := ⟨s.hdr + HEADER + size, s.size - size - HEADER, true⟩) (by simp))
  rw [splitted, if_pos rfl, hS.size] at hnew
  have hre : Relinked m (splitBlock m s.hdr size) xs ys (s.hdr + HEADER + size) := by
    have hsub : List.Sublist (xs ++ ys) (xs ++ s :: ys) := by simp
    refine relinked_of (hlay.sublist hsub) hlo fun x hx => ?_
    have hxs' := hlay.others_ne hx
    have hxn : x ≠ s.hdr + HEADER + size := by
      have hcases := hx
      simp only [Hdrs, List.map_append, List.mem_append] at hcases
      rcases hcases with hx | hx
      · have hlt := hxs x hx
        simp only [HEADER]; omega
      · have hle := hys x hx
        simp only [HEADER]; omega
    have hsub' : List.Sublist (xs ++ ys) (xs ++ ⟨s.hdr, size, false⟩ ::
        ⟨s.hdr + HEADER + size, s.size - size - HEADER, true⟩ :: ys) := by simp
    rw [hshows x (hdrs_mono hsub'.subset hx), splitted, if_neg hxn, if_neg hxs', hnext]
  have hseg := h.linked
  rw [List.map_append, List.map_cons] at hseg
  constructor
  · rw [List.map_append, List.map_cons, List.map_cons]
    refine seg_insert hseg hre.nextOf ?_ ?_ ?_ ?_ ?_
    · intro x hx
      simp only [List.mem_append, List.mem_cons] at hx
      rcases hx with hx | rfl | hx
      · rw [prevOf, prevOf, hre.before x hx]
      · rw [prevOf, prevOf, hself]
      · rw [prevOf, prevOf, hre.rest x hx]
    · rw [nextOf, hself]
    · rw [prevOf, hnew]
    · rw [nextOf, hnew, nextOf]
    · intro y hy
      rw [prevOf, hre.first y hy]
  · intro t ht
    simp only [List.mem_append, List.mem_cons] at ht
    rcases ht with ht | rfl | rfl | ht
    · exact hre.holds (Or.inl ht) (h.holds t (by simp [ht]))
    · exact ⟨by rw [hself]; exact hS.addr, by rw [hself]; exact hS.size, by rw [hself]; exact hS.free⟩
    · exact ⟨by rw [hnew], by rw [hnew], by rw [hnew]; rfl⟩
    · exact hre.holds (Or.inr ht) (h.holds t (by simp [ht]))

/-- The two assignments that hand a block out. -/
theorem mark_rep {m : Mem} {lo hi size : Nat} {xs ys : List Span} {s : Span}
    (h : Rep m (xs ++ s :: ys)) (hlay : Layout lo hi (xs ++ ⟨s.hdr, size, false⟩ :: ys))
    (hsize : size < 2 ^ 32) :
    Rep (setFree (setSize m s.hdr size) s.hdr 0) (xs ++ ⟨s.hdr, size, false⟩ :: ys) := by
  have hmem : Hdrs (xs ++ ⟨s.hdr, size, false⟩ :: ys) s.hdr :=
    mem_hdrs (s := ⟨s.hdr, size, false⟩) (by simp)
  have h1 : Shows m (Hdrs (xs ++ ⟨s.hdr, size, false⟩ :: ys)) (loadBlock m) := fun _ _ => rfl
  have h2 := (h1.setSize hlay.separate hmem hsize).setFree hlay.separate hmem (v := 0) (by decide)
  refine h.reset rfl ?_ fun x hx => ?_
  · rw [h2 _ hmem]
    simp
  · have hne := hlay.others_ne hx
    have hsub : List.Sublist (xs ++ ys) (xs ++ ⟨s.hdr, size, false⟩ :: ys) := by simp
    rw [h2 x (hdrs_mono hsub.subset hx), Function.update_of_ne hne, Function.update_of_ne hne]

/-- The memory `takeBlock` leaves. -/
def takeMem (m : Mem) (curr size : Nat) : Mem :=
  let m := if (loadBlock m curr).size ≥ add32 (add32 size HEADER) 1 then splitBlock m curr size else m
  let m := setSize m curr size
  setFree m curr 0

theorem takeMem_rep {m : Mem} {lo hi size : Nat} {xs ys : List Span} {s : Span}
    (h : Rep m (xs ++ s :: ys)) (hlay : Layout lo hi (xs ++ s :: ys)) (hlo : HEADER < lo)
    (hhi : hi ≤ 2 ^ 32) (hsize : size ≤ s.size) :
    Rep (takeMem m s.hdr size) (xs ++ (takeSpans s size ++ ys)) := by
  have hS := h.holds s (by simp)
  have hin := hlay.inside s (by simp)
  simp only [Span.stop, HEADER] at hin hlo
  have hlay' := hlay.take size hsize
  have hcond : add32 (add32 size HEADER) 1 = size + HEADER + 1 := by
    rw [add32_eq (a := size) (by simp only [HEADER]; omega), add32_eq (by simp only [HEADER]; omega)]
  simp only [takeMem, hS.size, hcond]
  unfold takeSpans at hlay' ⊢
  split
  case isTrue hsplit =>
    have h1 := splitBlock_rep h hlay (by omega) hhi hsplit
    rw [if_pos hsplit] at hlay'
    exact mark_rep h1 (by simpa using hlay') (by omega)
  case isFalse hsplit =>
    rw [if_neg hsplit] at hlay'
    exact mark_rep h (by simpa using hlay') (by omega)

/-- The header stores of `growHeap`, before the new block is linked. -/
def freshMem (m : Mem) (newBlock : Nat) : Mem :=
  let m := setAddr m newBlock (add32 newBlock HEADER)
  let m := setSize m newBlock (PAGE_SIZE - HEADER)
  let m := setFree m newBlock 1
  let m := setPrev m newBlock 0
  setNext m newBlock 0

/-- A new page as one block. -/
def pageSpan (hdr : Nat) : Span := ⟨hdr, PAGE_SIZE - HEADER, true⟩

theorem Layout.grow {lo hi : Nat} {spans : List Span} (h : Layout lo hi spans) (hle : lo ≤ hi) :
    Layout lo (hi + PAGE_SIZE) (spans ++ [pageSpan hi]) := by
  constructor
  · refine List.pairwise_append.mpr ⟨h.sorted, List.pairwise_singleton _ _, ?_⟩
    intro s hs t ht
    obtain rfl := List.mem_singleton.mp ht
    exact (h.inside s hs).2
  · intro s hs
    rcases List.mem_append.mp hs with hs | hs
    · have hin := h.inside s hs
      omega
    · obtain rfl := List.mem_singleton.mp hs
      simp only [Span.stop, pageSpan, HEADER, PAGE_SIZE]
      omega

theorem freshMem_shows {m : Mem} {S : Nat → Prop} {n : Nat} (hS : Separate S) (hn : S n)
    (hlt : n + HEADER < 2 ^ 32) :
    Shows (freshMem m n) S
      (Function.update (loadBlock m) n ⟨n + HEADER, PAGE_SIZE - HEADER, 1, 0, 0⟩) := by
  have h0 : Shows m S (loadBlock m) := fun _ _ => rfl
  have h1 := h0.setAddr hS hn hlt
  have h2 := h1.setSize hS hn (v := PAGE_SIZE - HEADER) (by decide)
  have h3 := h2.setFree hS hn (v := 1) (by decide)
  have h4 := h3.setPrev hS hn (v := 0) (by decide)
  have h5 := h4.setNext hS hn (v := 0) (by decide)
  simp only [Function.update_idem, Function.update_self] at h5
  rw [freshMem, add32_eq hlt]
  exact h5

theorem growMem_rep {m : Mem} {lo hi : Nat} {xs : List Span} {t : Span}
    (h : Rep m (xs ++ [t])) (hlay : Layout lo hi (xs ++ [t])) (hhi : hi + HEADER < 2 ^ 32) :
    Rep (freshMem m hi) (xs ++ [t]) ∧
      Rep (setNext (setPrev (freshMem m hi) hi t.hdr) t.hdr hi) (xs ++ [t] ++ [pageSpan hi]) := by
  have hin := hlay.inside t (by simp)
  have hlay' := hlay.grow (by simp only [Span.stop, HEADER] at hin; omega)
  simp only [Span.stop, HEADER] at hin hhi
  have hn : Hdrs (xs ++ [t] ++ [pageSpan hi]) hi := mem_hdrs (s := pageSpan hi) (by simp)
  have ht : Hdrs (xs ++ [t] ++ [pageSpan hi]) t.hdr := mem_hdrs (by simp)
  have hS := hlay'.separate
  have hne : ∀ x, Hdrs (xs ++ [t]) x → x ≠ hi := by
    intro x hx
    obtain ⟨s, hs, rfl⟩ := List.mem_map.mp hx
    have hs' := hlay.inside s hs
    simp only [Span.stop, HEADER] at hs'
    omega
  have hmono : ∀ x, Hdrs (xs ++ [t]) x → Hdrs (xs ++ [t] ++ [pageSpan hi]) x :=
    fun x hx => hdrs_mono (List.subset_append_left _ _) hx
  have hfresh := freshMem_shows (m := m) hS hn hhi
  have hrep : Rep (freshMem m hi) (xs ++ [t]) :=
    h.congr fun x hx => by rw [hfresh x (hmono x hx), Function.update_of_ne (hne x hx)]
  refine ⟨hrep, ?_⟩
  have hlink := (hfresh.setPrev hS hn (v := t.hdr) (by omega)).setNext hS ht (v := hi) (by omega)
  have htn : t.hdr ≠ hi := hne t.hdr (mem_hdrs (by simp))
  simp only [Function.update_idem, Function.update_self, Function.update_of_ne htn] at hlink
  have hself := hlink t.hdr ht
  have hnew := hlink hi hn
  rw [Function.update_self] at hself
  rw [Function.update_of_ne htn.symm, Function.update_self] at hnew
  have hother : ∀ x, Hdrs xs x →
      loadBlock (setNext (setPrev (freshMem m hi) hi t.hdr) t.hdr hi) x = loadBlock m x := by
    intro x hx
    have hx' : Hdrs (xs ++ [t]) x := hdrs_mono (List.subset_append_left _ _) hx
    have hxt : x ≠ t.hdr := (hlay.around.1 x hx).ne
    rw [hlink x (hmono x hx'), Function.update_of_ne hxt, Function.update_of_ne (hne x hx')]
  have hseg := h.linked
  rw [List.map_append, List.map_cons] at hseg
  constructor
  · simp only [List.map_append, List.map_cons, List.map_nil, List.append_assoc, List.cons_append,
      List.nil_append]
    refine seg_insert hseg ?_ ?_ ?_ ?_ ?_ (by simp)
    · intro x hx
      rw [nextOf, nextOf, hother x (by simpa [Hdrs] using hx)]
    · intro x hx
      simp only [List.tail_nil, List.mem_append, List.mem_singleton] at hx
      rcases hx with hx | rfl
      · rw [prevOf, prevOf, hother x hx]
      · rw [prevOf, prevOf, hself]
    · exact congrArg KHeapBlock.next hself
    · exact congrArg KHeapBlock.prev hnew
    · have hnil := h.next_mid
      rw [nextOf, nextOf]
      exact (congrArg KHeapBlock.next hnew).trans hnil.symm
  · intro s hs
    simp only [List.mem_append, List.mem_singleton] at hs
    rcases hs with (hs | rfl) | rfl
    · have heq := hother s.hdr (mem_hdrs hs)
      exact (h.holds s (by simp [hs])).congr (by rw [heq]) (by rw [heq]) (by rw [heq])
    · exact (h.holds s (by simp)).congr (by rw [hself]) (by rw [hself]) (by rw [hself])
    · exact ⟨congrArg KHeapBlock.addr hnew, congrArg KHeapBlock.size hnew,
        congrArg KHeapBlock.free hnew⟩

/-! ## Releasing a block -/

/-- The blocks handed out. -/
def used (spans : List Span) : List Span := spans.filter (fun s => !s.free)

/-- The bytes of the blocks and of their headers. -/
def total (spans : List Span) : Nat := (spans.map (fun s => HEADER + s.size)).sum

@[simp] theorem total_nil : total [] = 0 := rfl

@[simp] theorem total_cons (s : Span) (spans : List Span) :
    total (s :: spans) = HEADER + s.size + total spans := rfl

@[simp] theorem total_append (xs ys : List Span) : total (xs ++ ys) = total xs + total ys := by
  simp [total]

theorem coalesceNext_eq (m : Mem) (block : Nat) : coalesceNext m block =
    if (loadBlock m block).next ≠ 0 ∧ (loadBlock m (loadBlock m block).next).free ≠ 0 then
      mergeBlocks m block (loadBlock m block).next
    else m := rfl

theorem coalescePrev_eq (m : Mem) (block : Nat) : coalescePrev m block =
    if (loadBlock m block).prev ≠ 0 ∧ (loadBlock m (loadBlock m block).prev).free ≠ 0 then
      ((loadBlock m block).prev, mergeBlocks m (loadBlock m block).prev block)
    else (block, m) := rfl

theorem Holds.free_iff {m : Mem} {s : Span} (h : Holds m s) :
    (loadBlock m s.hdr).free ≠ 0 ↔ s.free = true := by
  rw [h.free]
  cases s.free <;> simp

theorem Layout.merge {lo hi : Nat} {xs ys : List Span} {a b : Span}
    (h : Layout lo hi (xs ++ a :: b :: ys)) :
    Layout lo hi (xs ++ { a with size := a.size + (HEADER + b.size) } :: ys) := by
  have hab := h.around.2 b.hdr (by simp)
  have hmid : Layout lo hi (xs ++ [a, b] ++ ys) := by simpa using h
  have h' := Layout.replace
    [{ a with size := a.size + (HEADER + b.size) }] hmid (by simp)
    (by simp) (by
      simp only [List.mem_singleton, forall_eq]
      refine ⟨b, by simp, ?_⟩
      simp only [Span.stop] at hab ⊢
      omega)
  simpa using h'

theorem coalesceNext_rep {m : Mem} {lo hi : Nat} {xs ys : List Span} {s : Span}
    (h : Rep m (xs ++ s :: ys)) (hlay : Layout lo hi (xs ++ s :: ys)) (hlo : 0 < lo)
    (hhi : hi ≤ 2 ^ 32) :
    ∃ s' ys', s'.hdr = s.hdr ∧ s'.free = s.free ∧ used ys' = used ys ∧
      Rep (coalesceNext m s.hdr) (xs ++ s' :: ys') ∧ Layout lo hi (xs ++ s' :: ys') ∧
      total (s' :: ys') = total (s :: ys) := by
  have hnext := h.next_mid
  rw [coalesceNext_eq]
  rcases headD_hdr ys with ⟨hn, rfl⟩ | ⟨t, zs, rfl, hn⟩
  · rw [if_neg (by rw [hnext, hn]; simp)]
    exact ⟨s, [], rfl, rfl, rfl, h, hlay, rfl⟩
  · have hT := h.holds t (by simp)
    have ht := hlay.inside t (by simp)
    rw [hnext, hn]
    cases hfree : t.free with
    | false =>
      rw [if_neg (fun hc => by simp [hT.free_iff.mp hc.2] at hfree)]
      exact ⟨s, t :: zs, rfl, rfl, rfl, h, hlay, rfl⟩
    | true =>
      rw [if_pos ⟨by omega, hT.free_iff.mpr hfree⟩]
      refine ⟨{ s with size := s.size + (HEADER + t.size) }, zs, rfl, rfl, by simp [used, hfree],
        mergeBlocks_rep h hlay hlo hhi, hlay.merge, ?_⟩
      simp only [total_cons]
      omega

theorem coalescePrev_rep {m : Mem} {lo hi : Nat} {xs ys : List Span} {s : Span}
    (h : Rep m (xs ++ s :: ys)) (hlay : Layout lo hi (xs ++ s :: ys)) (hlo : 0 < lo)
    (hhi : hi ≤ 2 ^ 32) (hs : s.free = true) :
    ∃ xs' s', s'.free = true ∧ (coalescePrev m s.hdr).1 = s'.hdr ∧
      Rep (coalescePrev m s.hdr).2 (xs' ++ s' :: ys) ∧ Layout lo hi (xs' ++ s' :: ys) ∧
      total (xs' ++ s' :: ys) = total (xs ++ s :: ys) ∧
      (xs = xs' ∧ s'.hdr = s.hdr ∨ ∃ a, xs = xs' ++ [a] ∧ a.free = true ∧ s'.hdr = a.hdr) := by
  have hprev := h.prev_mid
  rw [coalescePrev_eq]
  rcases List.eq_nil_or_concat' xs with rfl | ⟨xs', a, rfl⟩
  · rw [if_neg (by rw [hprev]; simp)]
    exact ⟨[], s, hs, rfl, h, hlay, rfl, Or.inl ⟨rfl, rfl⟩⟩
  · have hA := h.holds a (by simp)
    have ha := hlay.inside a (by simp)
    have hpa : (loadBlock m s.hdr).prev = a.hdr := by simpa using hprev
    rw [hpa]
    cases hfree : a.free with
    | false =>
      rw [if_neg (fun hc => by simp [hA.free_iff.mp hc.2] at hfree)]
      exact ⟨xs' ++ [a], s, hs, rfl, h, hlay, rfl, Or.inl ⟨rfl, rfl⟩⟩
    | true =>
      rw [if_pos ⟨by omega, hA.free_iff.mpr hfree⟩]
      rw [List.append_assoc, List.singleton_append] at h hlay
      dsimp only
      refine ⟨xs', { a with size := a.size + (HEADER + s.size) }, hfree, rfl,
        mergeBlocks_rep h hlay hlo hhi, hlay.merge, ?_, Or.inr ⟨a, rfl, hfree, rfl⟩⟩
      simp only [total_append, total_cons, total_nil]
      omega

end FrogKernel.Kheap
