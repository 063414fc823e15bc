import FrogKernel.Lib.Bytes

/-!
# Stacks of words

A stack grows down in a byte memory, by words of 32 bits.  `Stack m sp ws` says
that the words `ws` lie on it, the top first.  Pushing keeps what is there and
touches nothing but the new words; a frame that nobody writes to stays.
-/

namespace FrogKernel.Stacks

open FrogKernel.Bytes

abbrev Word := BitVec 32

/-- The word at an address. -/
def peek (m : Mem) (sp : Word) : Word := BitVec.ofNat 32 (read32 m sp.toNat)

def push (s : Mem × Word) (w : Word) : Mem × Word :=
  (write32 s.1 (s.2 - 4).toNat w.toNat, s.2 - 4)

/-- Push the words one after the other. -/
def pushAll (s : Mem × Word) (ws : List Word) : Mem × Word := ws.foldl push s

def Stack (m : Mem) : Word → List Word → Prop
  | _, [] => True
  | sp, w :: ws => peek m sp = w ∧ Stack m (sp + 4) ws

/-- Words that lie below the end of the memory are found by plain addresses. -/
theorem stack_congr {m m' : Mem} {sp : Word} {ws : List Word} (h : Stack m sp ws)
    (hend : sp.toNat + 4 * ws.length ≤ 2 ^ 32)
    (heq : ∀ a, sp.toNat ≤ a → a < sp.toNat + 4 * ws.length → m' a = m a) : Stack m' sp ws := by
  induction ws generalizing sp with
  | nil => trivial
  | cons w ws ih =>
    rw [List.length_cons] at hend heq
    refine ⟨?_, ?_⟩
    · rw [← h.1, peek, peek]
      exact congrArg _ (readN_congr fun a h1 h2 => heq a h1 (by omega))
    · cases ws with
      | nil => trivial
      | cons v ws =>
        rw [List.length_cons] at hend heq
        have hnext : (sp + 4).toNat = sp.toNat + 4 := by
          rw [BitVec.toNat_add]
          exact Nat.mod_eq_of_lt (by show sp.toNat + 4 < 2 ^ 32; omega)
        refine ih h.2 ?_ fun a h1 h2 => heq a (by omega) ?_
        · rw [List.length_cons]
          omega
        · rw [List.length_cons] at h2
          omega

theorem stack_getElem {m : Mem} {sp : Word} {ws : List Word} (h : Stack m sp ws) {i : Nat}
    (hi : i < ws.length) : peek m (sp + BitVec.ofNat 32 (4 * i)) = ws[i] := by
  induction ws generalizing sp i with
  | nil => exact absurd hi (Nat.not_lt_zero i)
  | cons w ws ih =>
    cases i with
    | zero => simpa using h.1
    | succ i =>
      have hnext : sp + BitVec.ofNat 32 (4 * (i + 1)) = sp + 4 + BitVec.ofNat 32 (4 * i) := by
        rw [BitVec.add_assoc, Nat.mul_succ, Nat.add_comm, BitVec.ofNat_add]
        rfl
      rw [hnext]
      exact ih h.2 (Nat.lt_of_succ_lt_succ hi)

theorem push_sp {s : Mem × Word} {w : Word} (h : 4 ≤ s.2.toNat) :
    (push s w).2.toNat = s.2.toNat - 4 := by
  have hlt := s.2.isLt
  have h4 : (4 : Word).toNat = 4 := rfl
  rw [push, BitVec.toNat_sub, h4]
  omega

theorem push_outside {s : Mem × Word} (w : Word) (h : 4 ≤ s.2.toNat) {a : Nat}
    (ha : a < s.2.toNat - 4 ∨ s.2.toNat ≤ a) : (push s w).1 a = s.1 a := by
  have hsp := push_sp (w := w) h
  exact writeN_outside _ (by rw [show (s.2 - 4).toNat = s.2.toNat - 4 from hsp]; omega)

/-- One push. -/
theorem stack_push {s : Mem × Word} {ws : List Word} (w : Word) (h : Stack s.1 s.2 ws)
    (hlo : 4 ≤ s.2.toNat) (hend : s.2.toNat + 4 * ws.length ≤ 2 ^ 32) :
    Stack (push s w).1 (push s w).2 (w :: ws) := by
  have hback : (push s w).2 + 4 = s.2 := BitVec.sub_add_cancel s.2 4
  refine ⟨?_, ?_⟩
  · have hread : read32 (push s w).1 (push s w).2.toNat = w.toNat :=
      readN_writeN_self s.1 (show w.toNat < 256 ^ 4 from w.isLt)
    rw [peek, hread, BitVec.ofNat_toNat, BitVec.setWidth_eq]
  · rw [hback]
    exact stack_congr h hend fun a h1 _ => push_outside w hlo (Or.inr h1)

theorem pushAll_sp {s : Mem × Word} {ws : List Word} (h : 4 * ws.length ≤ s.2.toNat) :
    (pushAll s ws).2.toNat = s.2.toNat - 4 * ws.length := by
  induction ws generalizing s with
  | nil => rfl
  | cons w ws ih =>
    rw [List.length_cons] at h
    have hsp := push_sp (w := w) (show 4 ≤ s.2.toNat by omega)
    rw [pushAll, List.foldl_cons, ← pushAll, ih (by omega), hsp, List.length_cons]
    omega

/-- Pushing writes only the new words. -/
theorem pushAll_outside {s : Mem × Word} {ws : List Word} (h : 4 * ws.length ≤ s.2.toNat) {a : Nat}
    (ha : a < s.2.toNat - 4 * ws.length ∨ s.2.toNat ≤ a) : (pushAll s ws).1 a = s.1 a := by
  induction ws generalizing s with
  | nil => rfl
  | cons w ws ih =>
    rw [List.length_cons] at h ha
    have hsp := push_sp (w := w) (show 4 ≤ s.2.toNat by omega)
    rw [pushAll, List.foldl_cons, ← pushAll, ih (by omega) (by omega),
      push_outside w (by omega) (by omega)]

theorem stack_pushAll {s : Mem × Word} {ws vs : List Word} (h : Stack s.1 s.2 vs)
    (hlo : 4 * ws.length ≤ s.2.toNat) (hend : s.2.toNat + 4 * vs.length ≤ 2 ^ 32) :
    Stack (pushAll s ws).1 (pushAll s ws).2 (ws.reverse ++ vs) := by
  induction ws generalizing s vs with
  | nil => exact h
  | cons w ws ih =>
    rw [List.length_cons] at hlo
    have hsp := push_sp (w := w) (show 4 ≤ s.2.toNat by omega)
    have hpush := stack_push w h (by omega) hend
    have hrest := ih hpush (by omega) (by rw [List.length_cons]; omega)
    rw [List.reverse_cons, List.append_assoc, List.singleton_append]
    exact hrest

/-- What was pushed lies on the stack, the last word first. -/
theorem stack_pushed {s : Mem × Word} {ws : List Word} (hlo : 4 * ws.length ≤ s.2.toNat) :
    Stack (pushAll s ws).1 (pushAll s ws).2 ws.reverse := by
  have hempty : Stack s.1 s.2 [] := trivial
  have hpushed := stack_pushAll hempty hlo (by have hlt := s.2.isLt; simp; omega)
  rwa [List.append_nil] at hpushed

end FrogKernel.Stacks
