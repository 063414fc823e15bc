import Mathlib.Algebra.Group.Nat.Defs
import Mathlib.Data.List.Basic
import Mathlib.Tactic.Common

/-!
# Doubly linked lists

Nodes are values of a type `α`, linked by two functions `prev` and `next`.
`Seg prev next p bs n` says that the nodes of `bs` are linked in order, that
the first one has `p` before it and the last one has `n` after it.

`seg_insert` and `seg_remove` are the two edits of such a list; `walkWhile` is
the loop that follows `next`, and `walkWhile_seg` what it does on a segment.
-/

namespace FrogKernel.DList

variable {α : Type*}

def Seg (prev next : α → α) : α → List α → α → Prop
  | _, [], _ => True
  | p, b :: bs, n => prev b = p ∧ next b = bs.headD n ∧ Seg prev next b bs n

variable {prev next prev' next' : α → α}

theorem seg_congr :
    ∀ {bs : List α} {p n : α}, (∀ b ∈ bs, prev' b = prev b) → (∀ b ∈ bs, next' b = next b) →
      Seg prev next p bs n → Seg prev' next' p bs n
  | [], _, _, _, _, _ => trivial
  | b :: bs, _, _, hp, hn, ⟨h1, h2, h3⟩ => by
    refine ⟨(hp b (by simp)).trans h1, (hn b (by simp)).trans h2, ?_⟩
    exact seg_congr (fun x hx => hp x (List.mem_cons_of_mem b hx))
      (fun x hx => hn x (List.mem_cons_of_mem b hx)) h3

/-- A concatenation is linked when both halves and the seam are. -/
theorem seg_append :
    ∀ {xs ys : List α} {p n : α}, Seg prev next p (xs ++ ys) n ↔
      Seg prev next p xs (ys.headD n) ∧ Seg prev next (xs.getLastD p) ys n
  | [], ys, p, n => by simp only [List.nil_append, Seg, List.getLastD_nil, true_and]
  | x :: xs, ys, p, n => by
    have ih : Seg prev next x (xs ++ ys) n ↔ _ := seg_append
    have hseam : (xs ++ ys).headD n = xs.headD (ys.headD n) := by cases xs <;> rfl
    simp only [List.cons_append, Seg, hseam, ih, List.getLastD_cons, and_assoc]

/-- The last node of a segment points at what comes after it. -/
theorem seg_next_last {xs : List α} {b p n : α} (h : Seg prev next p (xs ++ [b]) n) :
    next b = n :=
  (seg_append.mp h).2.2.1

/-- Every node points at the node after it. -/
theorem seg_next_mid {xs ys : List α} {b p n : α} (h : Seg prev next p (xs ++ b :: ys) n) :
    next b = ys.headD n :=
  (seg_append.mp h).2.2.1

/-- Every node points back at the node before it. -/
theorem seg_prev_mid {xs ys : List α} {b p n : α} (h : Seg prev next p (xs ++ b :: ys) n) :
    prev b = xs.getLastD p :=
  (seg_append.mp h).2.1

/-- Put `c` after `b`. -/
theorem seg_insert {xs ys : List α} {b c p n : α} (h : Seg prev next p (xs ++ b :: ys) n)
    (hnext : ∀ x ∈ xs ++ ys, next' x = next x) (hprev : ∀ x ∈ xs ++ b :: ys.tail, prev' x = prev x)
    (hbc : next' b = c) (hcb : prev' c = b) (hcn : next' c = next b)
    (hyc : ∀ y ∈ ys.head?, prev' y = c) : Seg prev' next' p (xs ++ b :: c :: ys) n := by
  obtain ⟨hxs, hb, hbn, hys⟩ := seg_append.mp h
  refine seg_append.mpr ⟨?_, ?_, hbc, hcb, hcn.trans hbn, ?_⟩
  · exact seg_congr (fun x hx => hprev x (by simp [hx])) (fun x hx => hnext x (by simp [hx])) hxs
  · exact (hprev b (by simp)).trans hb
  · cases ys with
    | nil => trivial
    | cons y ys =>
      obtain ⟨-, hyn, htail⟩ := hys
      refine ⟨hyc y (by simp), (hnext y (by simp)).trans hyn, ?_⟩
      exact seg_congr (fun x hx => hprev x (by simp [hx])) (fun x hx => hnext x (by simp [hx]))
        htail

/-- Take out `c`, the node after `b`. -/
theorem seg_remove {xs ys : List α} {b c p n : α} (h : Seg prev next p (xs ++ b :: c :: ys) n)
    (hnext : ∀ x ∈ xs ++ ys, next' x = next x) (hprev : ∀ x ∈ xs ++ b :: ys.tail, prev' x = prev x)
    (hbn : next' b = next c) (hyb : ∀ y ∈ ys.head?, prev' y = b) :
    Seg prev' next' p (xs ++ b :: ys) n := by
  obtain ⟨hxs, hb, -, -, hcn, hys⟩ := seg_append.mp h
  refine seg_append.mpr ⟨?_, ?_, hbn.trans hcn, ?_⟩
  · exact seg_congr (fun x hx => hprev x (by simp [hx])) (fun x hx => hnext x (by simp [hx])) hxs
  · exact (hprev b (by simp)).trans hb
  · cases ys with
    | nil => trivial
    | cons y ys =>
      obtain ⟨-, hyn, htail⟩ := hys
      refine ⟨hyb y (by simp), (hnext y (by simp)).trans hyn, ?_⟩
      exact seg_congr (fun x hx => hprev x (by simp [hx])) (fun x hx => hnext x (by simp [hx]))
        htail

/-! ## Walking -/

/-- `while (cont(c)) c = c->next`; no result when it takes more than the given
number of rounds. -/
def walkWhile (next : α → α) (cont : α → Bool) : Nat → α → Option α
  | 0, _ => none
  | n + 1, c => if cont c then walkWhile next cont n (next c) else some c

/-- Where a walk ends: what holds of the start and is kept by `next` holds there. -/
theorem walkWhile_some {cont : α → Bool} {P : α → Prop}
    (hnext : ∀ x, P x → cont x = true → P (next x)) :
    ∀ {k : Nat} {c r : α}, P c → walkWhile next cont k c = some r → P r ∧ cont r = false
  | 0, _, _, _, h => by simp [walkWhile] at h
  | k + 1, c, r, hc, h => by
    rw [walkWhile] at h
    split at h
    case isTrue hcont => exact walkWhile_some hnext (hnext c hc hcont) h
    case isFalse hcont =>
      obtain rfl := Option.some.inj h
      exact ⟨hc, by simpa using hcont⟩

/-- The walk passes the nodes on which it continues. -/
theorem walkWhile_pass (cont : α → Bool) :
    ∀ {xs ys : List α} {p n : α} {k : Nat}, Seg prev next p (xs ++ ys) n →
      (∀ x ∈ xs, cont x = true) →
      walkWhile next cont (xs.length + k) ((xs ++ ys).headD n) =
        walkWhile next cont k (ys.headD n)
  | [], ys, _, _, k, _, _ => by simp
  | x :: xs, ys, p, n, k, h, hc => by
    have htail := h.2.2
    have hn : next x = (xs ++ ys).headD n := h.2.1
    have hx := hc x (by simp)
    have ih := walkWhile_pass cont (k := k) htail (fun y hy => hc y (List.mem_cons_of_mem x hy))
    rw [List.length_cons, Nat.add_right_comm, walkWhile]
    simp only [List.cons_append, List.headD_cons, hx, ↓reduceIte, hn, ih]

/-- **Walk.**  With enough rounds the walk stops at the first node on which it
does not continue, or at the end. -/
theorem walkWhile_seg {cont : α → Bool} {bs : List α} {p n : α} {k : Nat}
    (h : Seg prev next p bs n) (hn : cont n = false) (hk : bs.length < k) :
    walkWhile next cont k (bs.headD n) = some ((bs.find? (fun b => !cont b)).getD n) := by
  induction bs generalizing p k with
  | nil =>
    obtain ⟨k, rfl⟩ : ∃ j, k = j + 1 := ⟨k - 1, by simp at hk; omega⟩
    simp [walkWhile, hn]
  | cons b bs ih =>
    obtain ⟨k, rfl⟩ : ∃ j, k = j + 1 := ⟨k - 1, by simp at hk; omega⟩
    obtain ⟨-, hb, htail⟩ := h
    rw [List.headD_cons, walkWhile]
    cases hc : cont b with
    | false => simp [hc]
    | true =>
      simp only [↓reduceIte, hb]
      rw [ih htail (by simpa using hk)]
      simp [hc]

end FrogKernel.DList
