import Mathlib.Data.List.Rotate
import FrogKernel.Lib.DList

/-!
# Singly linked lists and rings

Nodes are values of a type `α`, linked by a function `next`.  `Linked next xs n` says
that the nodes of `xs` are linked in order and that the last one points at `n`;
`Ring next xs` that it points at the first one.

`links_cut` and `ring_add` are the edits, `walk_end` and `walk_find` say where the
loop that follows `next` ends.
-/

namespace FrogKernel.Links

open FrogKernel.DList (walkWhile)

variable {α : Type*} {next next' : α → α}

def Linked (next : α → α) : List α → α → Prop
  | [], _ => True
  | x :: xs, n => next x = xs.headD n ∧ Linked next xs n

theorem links_congr {xs : List α} {n : α} (hsame : ∀ x ∈ xs, next' x = next x)
    (h : Linked next xs n) : Linked next' xs n := by
  induction xs with
  | nil => trivial
  | cons x xs ih =>
    exact ⟨(hsame x (by simp)).trans h.1, ih (fun y hy => hsame y (List.mem_cons_of_mem x hy)) h.2⟩

/-- A concatenation is linked when both halves and the seam are. -/
theorem links_append {xs ys : List α} {n : α} :
    Linked next (xs ++ ys) n ↔ Linked next xs (ys.headD n) ∧ Linked next ys n := by
  induction xs with
  | nil => simp only [List.nil_append, Linked, true_and]
  | cons x xs ih =>
    have hseam : (xs ++ ys).headD n = xs.headD (ys.headD n) := by cases xs <;> rfl
    simp only [List.cons_append, Linked, hseam, ih, and_assoc]

/-- Only the last node points out of the list, and none before it at the first one. -/
theorem next_mem_tail {xs : List α} {b n x : α} (h : Linked next (xs ++ [b]) n) (hx : x ∈ xs) :
    next x ∈ (xs ++ [b]).tail := by
  induction xs with
  | nil => cases hx
  | cons y ys ih =>
    rw [List.cons_append, List.tail_cons]
    rcases List.mem_cons.mp hx with rfl | hx
    · rw [h.1]
      cases ys <;> exact List.mem_cons_self
    · exact List.mem_of_mem_tail (ih h.2 hx)

/-- The link before a place leads over it to the rest. -/
theorem links_cut {xs ys : List α} {b c n : α} (h : Linked next (xs ++ b :: c :: ys) n)
    (hb : next' b = next c) (hsame : ∀ x ∈ xs ++ ys, next' x = next x) :
    Linked next' (xs ++ b :: ys) n := by
  obtain ⟨hxs, -, hc, hys⟩ := links_append.mp h
  refine links_append.mpr ⟨?_, hb.trans hc, ?_⟩
  · exact links_congr (fun x hx => hsame x (List.mem_append_left ys hx)) hxs
  · exact links_congr (fun x hx => hsame x (List.mem_append_right xs hx)) hys

/-! ## Walking -/

/-- The walk stops at the first node on which it does not continue. -/
theorem walk_find {cont : α → Bool} {xs : List α} {b n : α} {k : Nat} (h : Linked next xs n)
    (hfind : xs.find? (fun x => !cont x) = some b) (hk : xs.length ≤ k) :
    walkWhile next cont k (xs.headD n) = some b := by
  induction xs generalizing k with
  | nil => cases hfind
  | cons x xs ih =>
    obtain ⟨k, rfl⟩ : ∃ j, k = j + 1 := ⟨k - 1, by simp at hk; omega⟩
    rw [List.headD_cons, walkWhile]
    cases hc : cont x with
    | false =>
      rw [List.find?_cons_of_pos (by simp [hc])] at hfind
      rw [if_neg Bool.false_ne_true, hfind]
    | true =>
      rw [List.find?_cons_of_neg (by simp [hc])] at hfind
      rw [if_pos rfl, h.1]
      exact ih h.2 hfind (by simpa using hk)

/-- **Walk.**  It stops there, or at the end. -/
theorem walk_end {cont : α → Bool} {xs : List α} {n : α} {k : Nat} (h : Linked next xs n)
    (hn : cont n = false) (hk : xs.length < k) :
    walkWhile next cont k (xs.headD n) = some ((xs.find? (fun x => !cont x)).getD n) := by
  induction xs generalizing k with
  | nil =>
    obtain ⟨k, rfl⟩ : ∃ j, k = j + 1 := ⟨k - 1, by simp at hk; omega⟩
    simp [walkWhile, hn]
  | cons x xs ih =>
    obtain ⟨k, rfl⟩ : ∃ j, k = j + 1 := ⟨k - 1, by simp at hk; omega⟩
    rw [List.headD_cons, walkWhile]
    cases hc : cont x with
    | false => simp [hc]
    | true =>
      rw [if_pos rfl, h.1, ih h.2 (by simpa using hk), List.find?_cons_of_neg (by simp [hc])]

/-! ## Rings -/

def Ring (next : α → α) : List α → Prop
  | [] => True
  | x :: xs => Linked next (x :: xs) x

theorem ring_links {xs : List α} (n : α) (h : Ring next xs) : Linked next xs (xs.headD n) := by
  cases xs with
  | nil => trivial
  | cons x xs => exact h

/-- Every node of a ring can be the first one. -/
theorem ring_rotate {xs : List α} (h : Ring next xs) (k : Nat) : Ring next (xs.rotate k) := by
  induction k generalizing xs with
  | zero => rwa [List.rotate_zero]
  | succ k ih =>
    cases xs with
    | nil => exact h
    | cons x xs =>
      rw [List.rotate_cons_succ]
      refine ih ?_
      obtain ⟨hx, hxs⟩ := h
      cases xs with
      | nil => exact ⟨hx, trivial⟩
      | cons y ys =>
        have hring : Linked next ((y :: ys) ++ [x]) y := links_append.mpr ⟨hxs, hx, trivial⟩
        exact hring

/-- Put `c` after the last node. -/
theorem ring_add {xs : List α} {b c : α} (h : Ring next (xs ++ [b])) (hb : next' b = c)
    (hc : next' c = (xs ++ [b]).headD c) (hsame : ∀ x ∈ xs, next' x = next x) :
    Ring next' (xs ++ [b] ++ [c]) := by
  have hhead : ∀ n, (xs ++ [b] ++ [c]).headD n = (xs ++ [b]).headD c := by
    intro n
    cases xs <;> rfl
  have hlinks : Linked next' (xs ++ [b] ++ [c]) ((xs ++ [b]).headD c) := by
    have hold := (links_append.mp (ring_links c h)).1
    refine links_append.mpr ⟨links_append.mpr ⟨links_congr hsame hold, hb, trivial⟩, hc, trivial⟩
  revert hlinks
  rw [← hhead c]
  generalize xs ++ [b] ++ [c] = ys
  cases ys with
  | nil => exact fun _ => trivial
  | cons y ys => exact id

end FrogKernel.Links
