import FrogKernel.Lib.Runs
import Mathlib.Data.List.Basic

/-!
# Taking turns

Members sit in a ring in the order in which they joined, the one whose turn it
is among them.  `RotaStep`: the turn goes to the next seat, or a member joins
on the last seat.

* `rota_wait`: how many turns others have while one waits;
* `rota_fair`: with as many turns as there are members, everyone had one.
-/

namespace FrogKernel.Rotation

open FrogKernel.Runs

variable {α : Type*}

/-- The ring, cut open before its first seat. -/
structure Rota (α : Type*) where
  before : List α
  turn : α
  after : List α

def Rota.ring (r : Rota α) : List α := r.before ++ r.turn :: r.after

/-- In the order of their next turns. -/
def Rota.queue (r : Rota α) : List α := r.after ++ r.before ++ [r.turn]

def Rota.advance (r : Rota α) : Rota α :=
  match r.after, r.before with
  | y :: ys, xs => ⟨xs ++ [r.turn], y, ys⟩
  | [], x :: xs => ⟨[], x, xs ++ [r.turn]⟩
  | [], [] => r

def Rota.join (r : Rota α) (x : α) : Rota α := { r with after := r.after ++ [x] }

inductive Turn (α : Type*) where
  | advance (a b : α)
  | join (a : α)
  | pass

inductive RotaStep : Rota α → Turn α → Rota α → Prop
  | advance (r : Rota α) : RotaStep r (.advance r.turn r.advance.turn) r.advance
  | join (r : Rota α) (x : α) : RotaStep r (.join x) (r.join x)
  | pass (r : Rota α) : RotaStep r .pass r

def advances : List (Turn α) → Nat
  | [] => 0
  | .advance _ _ :: is => advances is + 1
  | .join _ :: is => advances is
  | .pass :: is => advances is

/-! ## One step -/

theorem advance_ring (r : Rota α) : r.advance.ring = r.ring := by
  obtain ⟨xs, c, ys⟩ := r
  cases ys with
  | cons y ys => simp [Rota.advance, Rota.ring]
  | nil =>
    cases xs with
    | cons x xs => rfl
    | nil => rfl

@[simp] theorem join_ring (r : Rota α) (x : α) : (r.join x).ring = r.ring ++ [x] := by
  simp [Rota.join, Rota.ring]

/-- The first one in the queue goes to its end. -/
theorem advance_queue (r : Rota α) :
    ∃ rest, r.queue = r.advance.turn :: rest ∧ r.advance.queue = rest ++ [r.advance.turn] := by
  obtain ⟨xs, c, ys⟩ := r
  cases ys with
  | cons y ys =>
    refine ⟨ys ++ xs ++ [c], by simp [Rota.advance, Rota.queue], ?_⟩
    simp [Rota.advance, Rota.queue]
  | nil =>
    cases xs with
    | cons x xs => exact ⟨xs ++ [c], rfl, by simp [Rota.advance, Rota.queue]⟩
    | nil => exact ⟨[], rfl, rfl⟩

theorem join_queue (r : Rota α) (x : α) :
    ∃ xs ys, r.queue = xs ++ ys ∧ (r.join x).queue = xs ++ x :: ys :=
  ⟨r.after, r.before ++ [r.turn], by simp [Rota.queue], by simp [Rota.join, Rota.queue]⟩

theorem mem_queue {r : Rota α} {x : α} : x ∈ r.queue ↔ x ∈ r.ring := by
  simp only [Rota.queue, Rota.ring, List.mem_append, List.mem_cons, List.not_mem_nil, or_false]
  tauto

theorem queue_length (r : Rota α) : r.queue.length = r.ring.length := by
  simp only [Rota.queue, Rota.ring, List.length_append, List.length_cons, List.length_nil]
  omega

variable [DecidableEq α]

/-- A joining member may sit down in front of one that waits. -/
theorem idxOf_insert_le (xs ys : List α) (x t : α) (ht : t ∈ xs ++ ys) :
    (xs ++ x :: ys).idxOf t ≤ (xs ++ ys).idxOf t + 1 := by
  by_cases hxs : t ∈ xs
  · rw [List.idxOf_append_of_mem hxs, List.idxOf_append_of_mem hxs]
    exact Nat.le_succ _
  · rw [List.idxOf_append_of_notMem hxs, List.idxOf_append_of_notMem hxs]
    by_cases hx : x = t
    · subst hx
      rw [List.idxOf_cons_self]
      omega
    · rw [List.idxOf_cons_ne _ hx]
      omega

/-! ## Runs -/

/-- **Waiting.**  While `t` has no turn, every turn brings it nearer to its own
and every new member puts it off by at most one. -/
theorem rota_wait {r r' : Rota α} {is : List (Turn α)} {t : α} (hrun : Run RotaStep r is r')
    (hmem : t ∈ r.queue) (hno : ∀ a, .advance a t ∉ is) :
    t ∈ r'.queue ∧
      advances is + r'.queue.idxOf t + r.ring.length ≤ r.queue.idxOf t + r'.ring.length := by
  induction hrun with
  | refl => exact ⟨hmem, by rw [advances]; omega⟩
  | @step r _ _ i is hstep _ ih =>
    have hno' : ∀ a, .advance a t ∉ is := fun a ha => hno a (List.mem_cons_of_mem i ha)
    cases hstep with
    | advance =>
      obtain ⟨rest, hqueue, hqueue'⟩ := advance_queue r
      have hne : r.advance.turn ≠ t := by
        rintro rfl
        exact hno r.turn List.mem_cons_self
      have hrest : t ∈ rest := by
        rw [hqueue] at hmem
        exact (List.mem_cons.mp hmem).resolve_left hne.symm
      obtain ⟨hmem', hle⟩ := ih (by rw [hqueue']; exact List.mem_append_left _ hrest) hno'
      refine ⟨hmem', ?_⟩
      rw [hqueue', List.idxOf_append_of_mem hrest, advance_ring] at hle
      rw [advances, hqueue, List.idxOf_cons_ne _ hne]
      omega
    | join x =>
      obtain ⟨xs, ys, hqueue, hqueue'⟩ := join_queue r x
      rw [hqueue] at hmem
      obtain ⟨hmem', hle⟩ := ih (by rw [hqueue']; simp at hmem ⊢; tauto) hno'
      refine ⟨hmem', ?_⟩
      have hinsert := idxOf_insert_le xs ys x t hmem
      rw [hqueue', join_ring, List.length_append, List.length_singleton] at hle
      rw [advances, hqueue]
      omega
    | pass => exact ih hmem hno'

/-- **Fairness.**  Turns for as many as there are members in the end leave
nobody out who was there in the beginning. -/
theorem rota_fair {r r' : Rota α} {is : List (Turn α)} {t : α} (hrun : Run RotaStep r is r')
    (hmem : t ∈ r.ring) (hmany : r'.ring.length ≤ advances is) : ∃ a, .advance a t ∈ is := by
  by_contra hno
  have hqueue := mem_queue.mpr hmem
  obtain ⟨-, hle⟩ := rota_wait hrun hqueue (not_exists.mp hno)
  have hlt := List.idxOf_lt_length_of_mem hqueue
  rw [queue_length] at hlt
  omega

end FrogKernel.Rotation
