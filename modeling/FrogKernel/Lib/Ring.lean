import Mathlib.Data.List.DropRight
import Mathlib.Data.Nat.ModEq
import Mathlib.Logic.Function.Basic
import Mathlib.Tactic.Common

/-!
# Ring buffers and edited lines

`slots ring size read count` is the queue in a ring of `size` slots, `count`
values from index `read` on.  Pushing, popping and taking back the last value
are steps of the indices.

`edit` is one keystroke of a line editor on the text typed so far: an erase
takes back the last character of the unfinished line, if there is one.
-/

namespace FrogKernel.Ring

variable {α : Type*}

/-! ## The queue -/

def slots (ring : Nat → α) (size read count : Nat) : List α :=
  (List.range count).map fun i => ring ((read + i) % size)

@[simp] theorem slots_length (ring : Nat → α) (size read count : Nat) :
    (slots ring size read count).length = count := by
  simp [slots]

@[simp] theorem slots_zero (ring : Nat → α) (size read : Nat) : slots ring size read 0 = [] := rfl

/-- The first value, and the queue behind it. -/
theorem slots_succ (ring : Nat → α) (size read count : Nat) :
    slots ring size read (count + 1) =
      ring (read % size) :: slots ring size ((read + 1) % size) count := by
  unfold slots
  rw [List.range_succ_eq_map, List.map_cons, List.map_map]
  congr 1
  refine List.map_congr_left fun i _ => ?_
  simp only [Function.comp_apply, Nat.succ_eq_add_one, Nat.mod_add_mod]
  congr 2
  omega

/-- The last value, and the queue before it. -/
theorem slots_concat (ring : Nat → α) (size read count : Nat) :
    slots ring size read (count + 1) =
      slots ring size read count ++ [ring ((read + count) % size)] := by
  simp [slots, List.range_succ]

/-- A write to a slot that is not queued. -/
theorem slots_update {ring : Nat → α} {size read count : Nat} (hcount : count < size) (c : α) :
    slots (Function.update ring ((read + count) % size) c) size read count =
      slots ring size read count := by
  refine List.map_congr_left fun i hi => ?_
  refine Function.update_of_ne (fun heq => ?_) ..
  have hi : i < count := List.mem_range.mp hi
  have hmod : Nat.ModEq size (read + i) (read + count) := heq
  replace hmod := Nat.ModEq.add_left_cancel' read hmod
  rw [Nat.ModEq, Nat.mod_eq_of_lt (by omega), Nat.mod_eq_of_lt hcount] at hmod
  omega

theorem slots_push {ring : Nat → α} {size read count : Nat} (hcount : count < size) (c : α) :
    slots (Function.update ring ((read + count) % size) c) size read (count + 1) =
      slots ring size read count ++ [c] := by
  rw [slots_concat, slots_update hcount, Function.update_self]

/-! ## The line editor -/

variable [DecidableEq α]

/-- The text after the last newline. -/
def unfinished (nl : α) (text : List α) : List α := text.rtakeWhile (· ≠ nl)

/-- One keystroke, with erase key `bs`. -/
def edit (nl bs : α) (text : List α) (c : α) : List α :=
  if c = bs then
    if unfinished nl text = [] then text else text.dropLast
  else text ++ [c]

theorem unfinished_concat (nl : α) (text : List α) (c : α) :
    unfinished nl (text ++ [c]) = if c = nl then [] else unfinished nl text ++ [c] := by
  unfold unfinished
  rw [List.rtakeWhile_concat]
  split <;> simp_all

@[simp] theorem unfinished_nil (nl : α) : unfinished nl ([] : List α) = [] := rfl

/-- What stands before a newline does not matter. -/
theorem unfinished_append (nl : α) (text rest : List α) :
    unfinished nl (text ++ nl :: rest) = unfinished nl rest := by
  induction rest using List.reverseRecOn with
  | nil => rw [unfinished_concat, if_pos rfl, unfinished_nil]
  | append_singleton rest c ih =>
    rw [← List.cons_append, ← List.append_assoc, unfinished_concat, unfinished_concat, ih]

theorem unfinished_length_le (nl : α) (text : List α) :
    (unfinished nl text).length ≤ text.length :=
  (List.rtakeWhile_suffix _ _).length_le

theorem unfinished_dropLast {nl : α} {text : List α} (h : unfinished nl text ≠ []) :
    unfinished nl text.dropLast = (unfinished nl text).dropLast := by
  rcases List.eq_nil_or_concat text with rfl | ⟨text, c, rfl⟩
  · simp
  · rw [List.concat_eq_append, unfinished_concat] at *
    rw [List.dropLast_concat]
    split at h
    · exact absurd rfl h
    case isFalse hc => rw [if_neg hc, List.dropLast_concat]

end FrogKernel.Ring
