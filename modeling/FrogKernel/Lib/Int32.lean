import Mathlib.Algebra.Group.Int.Defs
import Mathlib.Algebra.Group.Nat.Defs
import Mathlib.Tactic.Common

/-!
# 32-bit integers

`int32 z` and `uint32 z` are the values of the two types that are congruent to `z`.
-/

namespace FrogKernel.Int32

/-- The conversion to `int`. -/
def int32 (z : Int) : Int := z.bmod (2 ^ 32)

/-- The conversion to `unsigned int`. -/
def uint32 (z : Int) : Nat := (z % 2 ^ 32).toNat

theorem int32_of_mem {z : Int} (hlo : -2 ^ 31 ≤ z) (hhi : z < 2 ^ 31) : int32 z = z :=
  Int.bmod_eq_of_le (by omega) (by omega)

theorem int32_mem (z : Int) : -2 ^ 31 ≤ int32 z ∧ int32 z < 2 ^ 31 := by
  have hlo := Int.le_bmod (x := z) (m := 2 ^ 32) (by decide)
  have hhi := Int.bmod_lt (x := z) (m := 2 ^ 32) (by decide)
  rw [int32]
  omega

theorem int32_emod (z : Int) : int32 z % 2 ^ 32 = z % 2 ^ 32 := Int.bmod_emod

theorem int32_congr {y z : Int} (h : y % 2 ^ 32 = z % 2 ^ 32) : int32 y = int32 z := by
  have hmod : y % (2 ^ 32 : Nat) = z % (2 ^ 32 : Nat) := h
  rw [int32, int32, ← Int.emod_bmod y, ← Int.emod_bmod z, hmod]

/-- The conversion keeps the part above zero exactly when it keeps the number. -/
theorem int32_toNat_iff {z : Int} (hlo : -2 ^ 32 < z) :
    (int32 z).toNat = z.toNat ↔ -2 ^ 31 ≤ z ∧ z < 2 ^ 31 := by
  have hmem := int32_mem z
  have hmod := int32_emod z
  constructor
  · intro h
    omega
  · rintro ⟨hlo, hhi⟩
    rw [int32_of_mem hlo hhi]

theorem int32_le {z : Int} (h : 0 ≤ z) : int32 z ≤ z := by
  rw [int32, Int.bmod_def]
  split <;> omega

theorem uint32_of_mem {z : Int} (hlo : 0 ≤ z) (hhi : z < 2 ^ 32) : (uint32 z : Int) = z := by
  rw [uint32, Int.emod_eq_of_lt hlo hhi, Int.toNat_of_nonneg hlo]

/-- The absolute value of an `int`, as an unsigned number: the negation of the
least one overflows to itself. -/
theorem uint32_neg {z : Int} (hlo : -2 ^ 31 ≤ z) (hneg : z < 0) :
    uint32 (int32 (-z)) = z.natAbs := by
  rcases Int.lt_or_eq_of_le hlo with h | h
  · rw [int32_of_mem (by omega) (by omega)]
    have hu := uint32_of_mem (z := -z) (by omega) (by omega)
    omega
  · subst h
    decide

end FrogKernel.Int32
