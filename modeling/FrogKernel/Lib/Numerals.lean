import FrogKernel.Lib.CStrings
import Mathlib.Data.Nat.Digits.Lemmas

/-!
# Numerals

`numeral base v` is the numeral of `v` with lower-case digits and no leading
zeros, and `numeralValue base` reads a list of digits.
-/

namespace FrogKernel.Numerals

open FrogKernel.CStrings

def digitChars : List Char8 :=
  [ch '0', ch '1', ch '2', ch '3', ch '4', ch '5', ch '6', ch '7', ch '8', ch '9', ch 'a', ch 'b',
    ch 'c', ch 'd', ch 'e', ch 'f']

def digitChar (d : Nat) : Char8 := digitChars.getD d 0

def digitValue (c : Char8) : Nat := digitChars.idxOf c

def numeral (base v : Nat) : List Char8 :=
  if v = 0 then [ch '0'] else ((Nat.digits base v).map digitChar).reverse

/-- The value of digits, the most significant first. -/
def numeralValue (base : Nat) (ds : List Char8) : Nat :=
  Nat.ofDigits base (ds.map digitValue).reverse

theorem digitValue_digitChar : ∀ d < 16, digitValue (digitChar d) = d := by
  decide

theorem digitChar_ne_zero : ∀ d < 16, digitChar d ≠ 0 := by
  decide

theorem mem_numeral {base v : Nat} (hbase : 1 < base) {c : Char8} (h : c ∈ numeral base v) :
    ∃ d < base, c = digitChar d := by
  unfold numeral at h
  split at h
  · exact ⟨0, by omega, List.mem_singleton.mp h⟩
  · obtain ⟨d, hd, rfl⟩ := List.mem_map.mp (List.mem_reverse.mp h)
    exact ⟨d, Nat.digits_lt_base hbase hd, rfl⟩

theorem numeral_ne_nil (base v : Nat) : numeral base v ≠ [] := by
  unfold numeral
  split
  case isTrue => exact List.cons_ne_nil _ _
  case isFalse hv =>
    rw [ne_eq, List.reverse_eq_nil_iff, List.map_eq_nil_iff, Nat.digits_eq_nil_iff_eq_zero]
    exact hv

theorem numeralValue_numeral {base : Nat} (hbase : 1 < base) (h16 : base ≤ 16) (v : Nat) :
    numeralValue base (numeral base v) = v := by
  unfold numeral
  split
  case isTrue hv =>
    subst hv
    simp [numeralValue, digitValue, digitChars]
  case isFalse hv =>
    have hmap : ((Nat.digits base v).map digitChar).map digitValue = Nat.digits base v := by
      rw [List.map_map]
      refine (List.map_congr_left fun d hd => ?_).trans (List.map_id _)
      exact digitValue_digitChar d (Nat.lt_of_lt_of_le (Nat.digits_lt_base hbase hd) h16)
    rw [numeralValue, List.map_reverse, List.reverse_reverse, hmap, Nat.ofDigits_digits]

theorem numeral_length_le {base v k : Nat} (hbase : 1 < base) (hk : 0 < k) (hv : v < base ^ k) :
    (numeral base v).length ≤ k := by
  unfold numeral
  split
  · exact hk
  · rw [List.length_reverse, List.length_map]
    exact (Nat.digits_length_le_iff hbase v).mpr hv

theorem numeralValue_append (base : Nat) (ds : List Char8) (c : Char8) :
    numeralValue base (ds ++ [c]) = digitValue c + base * numeralValue base ds := by
  simp [numeralValue, Nat.ofDigits_cons]

/-- Zeros in front do not count. -/
theorem numeralValue_zeros (base k : Nat) (ds : List Char8) :
    numeralValue base (List.replicate k (ch '0') ++ ds) = numeralValue base ds := by
  have hzero : digitValue (ch '0') = 0 := by decide
  rw [numeralValue, List.map_append, List.map_replicate, List.reverse_append, List.reverse_replicate,
    hzero, Nat.ofDigits_append_replicate_zero, numeralValue]

end FrogKernel.Numerals
