import FrogKernel.Lib.CStrings
import FrogKernel.Lib.Traces

/-!
# The accesses of the string functions

The loops of `strnlen`, `memcpy` and `strncpy` with the bytes that they read and
write as their trace: `rd` names a read and `wr` a write.  Each comes to the same as
the loop without the trace, and has one rule for what holds of all its accesses.
-/

namespace FrogKernel.StringAccesses

open FrogKernel.Bytes FrogKernel.CStrings FrogKernel.Traces

variable {ε ω : Type} (rd wr : Nat → ω)

def readByte (m : Mem) (a : Nat) : Traced ε ω Char8 := emit [rd a] (.ok (m a))

def writeByte (d : Mem) (i v : Nat) : Traced ε ω Mem := emit [wr i] (.ok (write8 d i v))

def strnlenTraced (m : Mem) (a : Nat) : Nat → Traced ε ω Nat
  | 0 => pure 0
  | n + 1 => do
    let c ← readByte rd m a
    if c = 0 then pure 0
    else do
      let len ← strnlenTraced m (a + 1) n
      pure (len + 1)

def fillTraced (d : Mem) (p c : Nat) : Nat → Traced ε ω Mem
  | 0 => pure d
  | n + 1 => do
    let d ← writeByte wr d p c
    fillTraced d (p + 1) c n

def copyTraced (d : Mem) (p : Nat) (src : Mem) (s : Nat) : Nat → Traced ε ω Mem
  | 0 => pure d
  | n + 1 => do
    let c ← readByte rd src s
    let d ← emit [wr p] (.ok fun x => if x = p then c else d x)
    copyTraced d (p + 1) src (s + 1) n

def strncpyTraced (d : Mem) (p : Nat) (src : Mem) (s : Nat) : Nat → Traced ε ω Mem
  | 0 => pure d
  | n + 1 => do
    let c ← readByte rd src s
    if c = 0 then fillTraced wr d p 0 (n + 1)
    else do
      let d ← emit [wr p] (.ok fun x => if x = p then c else d x)
      strncpyTraced d (p + 1) src (s + 1) n

variable {rd wr}

/-! ## Results -/

@[simp] theorem readByte_result (m : Mem) (a : Nat) :
    (readByte rd m a : Traced ε ω Char8).result = .ok (m a) := rfl

@[simp] theorem writeByte_result (d : Mem) (i v : Nat) :
    (writeByte wr d i v : Traced ε ω Mem).result = .ok (write8 d i v) := rfl

@[simp] theorem strnlenTraced_result (m : Mem) (a n : Nat) :
    (strnlenTraced rd m a n : Traced ε ω Nat).result = .ok (strnlen m a n) := by
  induction n generalizing a with
  | zero => rfl
  | succ n ih =>
    rw [strnlenTraced, strnlen, result_bind_ok (readByte_result m a), result_ite,
      result_bind_ok (ih (a + 1)), result_pure, result_pure]
    split <;> rfl

@[simp] theorem fillTraced_result (d : Mem) (p c n : Nat) :
    (fillTraced wr d p c n : Traced ε ω Mem).result = .ok (fill d p c n) := by
  induction n generalizing d p with
  | zero => rw [fillTraced, fill, result_pure]
  | succ n ih => rw [fillTraced, fill, result_bind_ok (writeByte_result d p c), ih]

@[simp] theorem copyTraced_result (d : Mem) (p : Nat) (src : Mem) (s n : Nat) :
    (copyTraced rd wr d p src s n : Traced ε ω Mem).result = .ok (copy d p src s n) := by
  induction n generalizing d p s with
  | zero => rw [copyTraced, copy, result_pure]
  | succ n ih =>
    rw [copyTraced, copy, result_bind_ok (readByte_result src s),
      result_bind_ok (result_emit _ _), ih]

@[simp] theorem strncpyTraced_result (d : Mem) (p : Nat) (src : Mem) (s n : Nat) :
    (strncpyTraced rd wr d p src s n : Traced ε ω Mem).result = .ok (strncpy d p src s n) := by
  induction n generalizing d p s with
  | zero => rfl
  | succ n ih =>
    rw [strncpyTraced, strncpy, result_bind_ok (readByte_result src s), result_ite,
      fillTraced_result, result_bind_ok (result_emit _ _), ih]
    split <;> rfl

/-! ## What holds of all accesses -/

variable {P : ω → Prop}

theorem forall_mem_readByte (m : Mem) (a : Nat) :
    (∀ w ∈ (readByte rd m a : Traced ε ω Char8).trace, P w) ↔ P (rd a) :=
  List.forall_mem_singleton

theorem forall_mem_writeByte (d : Mem) (i v : Nat) :
    (∀ w ∈ (writeByte wr d i v : Traced ε ω Mem).trace, P w) ↔ P (wr i) :=
  List.forall_mem_singleton

/-- `strnlen` reads up to the NUL it counts to. -/
theorem forall_mem_strnlen (m : Mem) (a n : Nat) :
    (∀ w ∈ (strnlenTraced rd m a n : Traced ε ω Nat).trace, P w) ↔
      ∀ i, i < n → i ≤ strnlen m a n → P (rd (a + i)) := by
  induction n generalizing a with
  | zero => exact iff_of_true (List.forall_mem_nil _) fun i hi => absurd hi (Nat.not_lt_zero i)
  | succ n ih =>
    rw [strnlenTraced, strnlen, forall_mem_bind_ok (readByte_result m a), forall_mem_readByte,
      Nat.forall_lt_succ_left]
    by_cases h0 : m a = 0
    · simp only [h0, if_true, trace_pure, List.not_mem_nil]
      simp
    · simp only [h0, if_false, forall_mem_bind_ok (strnlenTraced_result m (a + 1) n), ih,
        trace_pure, List.not_mem_nil, Nat.add_le_add_iff_right, Nat.add_assoc, Nat.add_comm 1]
      simp

theorem forall_mem_fill (d : Mem) (p c n : Nat) :
    (∀ w ∈ (fillTraced wr d p c n : Traced ε ω Mem).trace, P w) ↔ ∀ i < n, P (wr (p + i)) := by
  induction n generalizing d p with
  | zero => exact iff_of_true (List.forall_mem_nil _) fun i hi => absurd hi (Nat.not_lt_zero i)
  | succ n ih =>
    rw [fillTraced, forall_mem_bind_ok (writeByte_result d p c), forall_mem_writeByte, ih,
      Nat.forall_lt_succ_left]
    simp only [Nat.add_zero, Nat.add_assoc, Nat.add_comm 1]

theorem forall_mem_copy (d : Mem) (p : Nat) (src : Mem) (s n : Nat) :
    (∀ w ∈ (copyTraced rd wr d p src s n : Traced ε ω Mem).trace, P w) ↔
      ∀ i < n, P (rd (s + i)) ∧ P (wr (p + i)) := by
  induction n generalizing d p s with
  | zero => exact iff_of_true (List.forall_mem_nil _) fun i hi => absurd hi (Nat.not_lt_zero i)
  | succ n ih =>
    rw [copyTraced, forall_mem_bind_ok (readByte_result src s), forall_mem_readByte,
      forall_mem_bind_ok (result_emit _ _), trace_emit, List.forall_mem_singleton, ih,
      Nat.forall_lt_succ_left]
    simp only [Nat.add_zero, Nat.add_assoc, Nat.add_comm 1, and_assoc]

/-- `strncpy` reads up to the NUL and writes all `n` bytes. -/
theorem forall_mem_strncpy (d : Mem) (p : Nat) (src : Mem) (s n : Nat) :
    (∀ w ∈ (strncpyTraced rd wr d p src s n : Traced ε ω Mem).trace, P w) ↔
      (∀ i, i < n → i ≤ strnlen src s n → P (rd (s + i))) ∧ ∀ i < n, P (wr (p + i)) := by
  induction n generalizing d p s with
  | zero =>
    refine iff_of_true (List.forall_mem_nil _) ⟨?_, ?_⟩
    · exact fun i hi => absurd hi (Nat.not_lt_zero i)
    · exact fun i hi => absurd hi (Nat.not_lt_zero i)
  | succ n ih =>
    rw [strncpyTraced, strnlen, forall_mem_bind_ok (readByte_result src s), forall_mem_readByte]
    by_cases h0 : src s = 0
    · rw [if_pos h0, if_pos h0, forall_mem_fill]
      refine and_congr_left fun _ => ⟨fun h i _ hi => ?_, fun h => h 0 (Nat.succ_pos n) (Nat.le_refl 0)⟩
      obtain rfl := Nat.le_zero.mp hi
      exact h
    · rw [if_neg h0, if_neg h0, forall_mem_bind_ok (result_emit _ _), trace_emit,
        List.forall_mem_singleton, ih, Nat.forall_lt_succ_left, Nat.forall_lt_succ_left]
      simp only [Nat.add_zero, Nat.add_assoc, Nat.add_comm 1, Nat.add_le_add_iff_right,
        Nat.zero_le, forall_const]
      tauto

end FrogKernel.StringAccesses
