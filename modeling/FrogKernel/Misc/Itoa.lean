import FrogKernel.Misc.Decimals

/-!
# Signed numbers as text (`misc/util.c`, `libc/stdlib.c`)

`itoa` negates a negative number in base 10 only, and takes digits off while the number is
positive.

Main result: `itoa_iff`, which numbers come out as a numeral in base 10 and in base 16.
-/

namespace FrogKernel.Itoa

open FrogKernel.Bytes FrogKernel.CStrings FrogKernel.Int32 FrogKernel.Numerals FrogKernel.Traces
open FrogKernel.Utoa FrogKernel.Vsnprintf

/-- `while (value > 0)`, with at most `n` rounds; the result is `tmp` and `i`. -/
def itoaDigits (base : Nat) : Nat → Int → Mem → Nat → Traced Unit Write (Mem × Nat)
  | 0, _, _, _ => silent (.error ())
  | n + 1, value, tmp, i =>
    if value > 0 then do
      let tmp ← writeTmp tmp i (digitChar (value.tmod base).toNat)
      itoaDigits base n (value.tdiv base) tmp (i + 1)
    else pure (tmp, i)

/-- `itoa` with the buffer at `a`; `stack` is what `tmp` holds before. -/
def itoa (stack buf : Mem) (value : Int) (a base : Nat) : Traced Unit Write Mem :=
  if value = 0 then do
    let buf ← writeBuf buf a (ch '0')
    writeBuf buf (a + 1) 0
  else do
    let neg := value < 0 ∧ base = 10
    let value := if neg then int32 (-value) else value
    let digits ← itoaDigits base ROUNDS value stack 0
    let tmp ← if neg then writeTmp digits.1 digits.2 (ch '-') else pure digits.1
    let i := if neg then digits.2 + 1 else digits.2
    let copied ← utoaCopy tmp i buf a
    writeBuf copied.1 copied.2 0

/-! ## The text -/

/-- The digits of a positive number; there are none for the others. -/
def positiveDigits (base : Nat) (value : Int) : List Char8 :=
  ((Nat.digits base value.toNat).map digitChar).reverse

def itoaText (base : Nat) (value : Int) : List Char8 :=
  if value = 0 then [ch '0']
  else if value < 0 ∧ base = 10 then ch '-' :: positiveDigits base (int32 (-value))
  else positiveDigits base value

/-- The loop is the one of `utoa`. -/
theorem itoaDigits_eq (base n : Nat) : ∀ (value : Int) (tmp : Mem) (i : Nat),
    itoaDigits base n value tmp i = utoaDigits base n value.toNat tmp i := by
  induction n with
  | zero => exact fun _ _ _ => rfl
  | succ n ih =>
    intro value tmp i
    rw [itoaDigits, utoaDigits]
    by_cases hvalue : value > 0
    · obtain ⟨v, rfl⟩ := Int.eq_ofNat_of_zero_le (Int.le_of_lt hvalue)
      have hpos : v > 0 := by omega
      simp only [if_pos hvalue, if_pos hpos, Int.toNat_natCast, ih]
      rfl
    · have hzero : ¬ value.toNat > 0 := by omega
      rw [if_neg hvalue, if_neg hzero]

/-- A number of 31 bits has fewer than 32 digits, whether it is positive or not. -/
theorem positiveDigits_length {base : Nat} (hbase : Base base) {value : Int} (hhi : value < 2 ^ 31) :
    (positiveDigits base value).length < 32 := by
  rw [positiveDigits, List.length_reverse, List.length_map]
  refine Nat.lt_of_le_of_lt ((Nat.digits_length_le_iff hbase.1 value.toNat).mpr (?_ : _ < base ^ 31))
    (by decide)
  exact Nat.lt_of_lt_of_le (by omega : value.toNat < 2 ^ 31) (Nat.pow_le_pow_left hbase.1 31)

theorem positiveDigits_ne_zero {base : Nat} (hbase : Base base) (value : Int) :
    ∀ c ∈ positiveDigits base value, c ≠ 0 := by
  intro c hc
  obtain ⟨d, hd, rfl⟩ := List.mem_map.mp (List.mem_reverse.mp hc)
  exact digitChar_ne_zero d (Nat.lt_of_lt_of_le (Nat.digits_lt_base hbase.1 hd) hbase.2)

theorem itoa_zero (stack buf : Mem) (a base : Nat) :
    itoa stack buf 0 a base = utoa stack buf 0 a base := by
  rw [itoa, utoa, if_pos rfl, if_pos rfl]

theorem itoaDigits_spec {base : Nat} {value : Int} (hbase : Base base) (hhi : value < 2 ^ 31)
    (tmp : Mem) (a len : Nat) : ∃ tmp',
      Gives (Inside a len) (itoaDigits base ROUNDS value tmp 0)
        (tmp', (positiveDigits base value).length) ∧
      Holds tmp' 0 (positiveDigits base value).reverse := by
  have hlen : (positiveDigits base value).length = (Nat.digits base value.toNat).length := by
    rw [positiveDigits, List.length_reverse, List.length_map]
  have hdigits := positiveDigits_length hbase hhi
  obtain ⟨tmp', hgives, hholds, -⟩ := utoaDigits_spec (P := Inside a len) hbase.1 ROUNDS value.toNat
    tmp 0 (Nat.lt_trans (hlen ▸ hdigits) (by decide)) (fun j hj => show j < 32 by omega)
  rw [itoaDigits_eq, hlen]
  rw [Nat.zero_add] at hgives
  refine ⟨tmp', hgives, ?_⟩
  rw [positiveDigits, List.reverse_reverse]
  exact hholds

/-- **`itoa`.** -/
theorem itoa_spec {base : Nat} {value : Int} (hbase : Base base) (hhi : value < 2 ^ 31)
    (stack buf : Mem) (a : Nat) : ∃ buf',
      Gives (Inside a (itoaText base value).length) (itoa stack buf value a base) buf' ∧
      CStr buf' a (itoaText base value) := by
  by_cases h0 : value = 0
  · subst h0
    obtain ⟨buf', hgives, hcstr, -⟩ := utoa_spec (P := Inside a (numeral base 0).length) hbase
      (by decide : 0 < 2 ^ 32) stack buf a (fun _ hi => hi) (fun _ hlo hhi => ⟨hlo, hhi⟩)
    rw [itoa_zero]
    exact ⟨buf', hgives, hcstr⟩
  rw [itoa, itoaText, if_neg h0, if_neg h0]
  by_cases hneg : value < 0 ∧ base = 10
  · -- the sign goes behind the digits, so it comes out in front of them
    have hlen := positiveDigits_length hbase (int32_mem (-value)).2
    obtain ⟨tmp, hdigits, hholds⟩ := itoaDigits_spec hbase (int32_mem (-value)).2 stack a
      (ch '-' :: positiveDigits base (int32 (-value))).length
    have hsigned := holds_write8 hholds (ch '-')
    rw [List.length_reverse, Nat.zero_add] at hsigned
    obtain ⟨buf', hcopied, hcstr, -⟩ := copied_spec buf hsigned
      (fun c hc => by
        rcases List.mem_append.mp hc with hc | hc
        · exact positiveDigits_ne_zero hbase _ c (List.mem_reverse.mp hc)
        · rw [List.mem_singleton.mp hc]
          decide)
      (P := Inside a (ch '-' :: positiveDigits base (int32 (-value))).length)
      (fun b hlo hhi => ⟨hlo, by simpa using hhi⟩)
    rw [List.length_append, List.length_reverse, List.length_singleton] at hcopied
    rw [List.reverse_append, List.reverse_reverse] at hcstr
    simp only [if_pos hneg]
    exact ⟨buf', Gives.bind hdigits (Gives.bind (gives_emit (w := Write.tmp _) hlen _) hcopied), hcstr⟩
  · obtain ⟨tmp, hdigits, hholds⟩ := itoaDigits_spec hbase hhi stack a
      (positiveDigits base value).length
    obtain ⟨buf', hcopied, hcstr, -⟩ := copied_spec buf hholds
      (fun c hc => positiveDigits_ne_zero hbase _ c (List.mem_reverse.mp hc))
      (P := Inside a (positiveDigits base value).length)
      (fun b hlo hhi => ⟨hlo, by simpa using hhi⟩)
    rw [List.length_reverse] at hcopied
    rw [List.reverse_reverse] at hcstr
    simp only [if_neg hneg]
    exact ⟨buf', Gives.bind hdigits (Gives.bind (gives_pure _) hcopied), hcstr⟩

/-! ## Numerals -/

/-- The call leaves a string at `a` with the property `T`. -/
def Leaves (call : Traced Unit Write Mem) (a : Nat) (T : List Char8 → Prop) : Prop :=
  ∃ buf s, call.result = .ok buf ∧ CStr buf a s ∧ T s

/-- The canonical decimal numeral. -/
def Decimal (v : BitVec 32) (s : List Char8) : Prop := s = natural v.toInt

/-- Hexadecimal digits, with or without a sign, that denote the number as a signed or
as an unsigned one. -/
def Hexadecimal (v : BitVec 32) (s : List Char8) : Prop :=
  ∃ ds, ds ≠ [] ∧ (∀ c ∈ ds, ∃ d < 16, c = digitChar d) ∧ ∃ z : Int,
    (s = ds ∧ z = numeralValue 16 ds ∨ s = ch '-' :: ds ∧ z = -(numeralValue 16 ds : Int)) ∧
    (z = v.toInt ∨ z = v.toNat)

variable {base : Nat}

theorem leaves_iff (hbase : Base base) (stack buf : Mem) (v : BitVec 32) (a : Nat)
    (T : List Char8 → Prop) :
    Leaves (itoa stack buf v.toInt a base) a T ↔ T (itoaText base v.toInt) := by
  have hhi : v.toInt < 2 ^ 31 := by
    have hlt := BitVec.toInt_lt (x := v)
    omega
  obtain ⟨buf', hgives, hcstr⟩ := itoa_spec hbase hhi stack buf a
  constructor
  · rintro ⟨buf'', s, hresult, hs, hT⟩
    obtain rfl := Except.ok.inj (hgives.result.symm.trans hresult)
    rwa [hs.unique hcstr] at hT
  · exact fun hT => ⟨buf', _, hgives.result, hcstr, hT⟩

theorem positiveDigits_of_pos {value : Int} (h : 0 < value) :
    positiveDigits base value = numeral base value.natAbs := by
  have hne : ¬ value.natAbs = 0 := by omega
  have hnat : value.toNat = value.natAbs := by omega
  rw [positiveDigits, numeral, if_neg hne, hnat]

theorem positiveDigits_of_nonpos {value : Int} (h : value ≤ 0) : positiveDigits base value = [] := by
  rw [positiveDigits, Int.toNat_of_nonpos h]
  simp

/-- In base 10 the least number has no negation. -/
theorem itoaText_decimal_iff (v : BitVec 32) :
    Decimal v (itoaText 10 v.toInt) ↔ v ≠ BitVec.intMin 32 := by
  have hlo : -2 ^ 31 ≤ v.toInt := BitVec.le_toInt v
  have hmin : v = BitVec.intMin 32 ↔ v.toInt = -2 ^ 31 := BitVec.toInt_inj.symm
  rw [Decimal, itoaText, natural, sign, ne_eq, hmin]
  rcases Int.lt_trichotomy v.toInt 0 with hneg | hzero | hpos
  · rw [if_neg (Int.ne_of_lt hneg), if_pos ⟨hneg, rfl⟩, if_pos hneg, List.singleton_append,
      List.cons_inj_right]
    by_cases hleast : v.toInt = -2 ^ 31
    · have hnone : positiveDigits 10 (int32 (-v.toInt)) = [] := by
        rw [hleast]
        exact positiveDigits_of_nonpos (by decide)
      rw [hnone]
      exact iff_of_false (fun h => numeral_ne_nil _ _ h.symm) (fun h => h hleast)
    · have hsome : positiveDigits 10 (int32 (-v.toInt)) = numeral 10 v.toInt.natAbs := by
        rw [int32_of_mem (by omega) (by omega), positiveDigits_of_pos (by omega), Int.natAbs_neg]
      exact iff_of_true hsome hleast
  · rw [hzero]
    decide
  · rw [if_neg (Int.ne_of_gt hpos), if_neg (fun h => Int.lt_asymm hpos h.1),
      if_neg (Int.lt_asymm hpos), List.nil_append]
    exact iff_of_true (positiveDigits_of_pos hpos) (by omega)

/-- In base 16 a negative number has no digits. -/
theorem itoaText_hexadecimal_iff (v : BitVec 32) :
    Hexadecimal v (itoaText 16 v.toInt) ↔ 0 ≤ v.toInt := by
  have htext : itoaText 16 v.toInt = if 0 ≤ v.toInt then numeral 16 v.toInt.natAbs else [] := by
    have hdecimal : ¬ (v.toInt < 0 ∧ 16 = 10) := fun h => absurd h.2 (by decide)
    rw [itoaText, if_neg hdecimal]
    rcases Int.lt_trichotomy v.toInt 0 with hneg | hzero | hpos
    · rw [if_neg (Int.ne_of_lt hneg), if_neg (Int.not_le.mpr hneg)]
      exact positiveDigits_of_nonpos (Int.le_of_lt hneg)
    · rw [hzero]
      decide
    · rw [if_neg (Int.ne_of_gt hpos), if_pos (Int.le_of_lt hpos)]
      exact positiveDigits_of_pos hpos
  rw [htext]
  by_cases h : 0 ≤ v.toInt
  · rw [if_pos h]
    refine iff_of_true ⟨_, numeral_ne_nil _ _, fun c hc => mem_numeral (by decide) hc, v.toInt,
      Or.inl ⟨rfl, ?_⟩, Or.inl rfl⟩ h
    rw [numeralValue_numeral (by decide) (by decide)]
    omega
  · rw [if_neg h]
    refine iff_of_false ?_ h
    rintro ⟨ds, hne, -, z, ⟨hds, -⟩ | ⟨hds, -⟩, -⟩
    · exact hne hds.symm
    · cases hds

/-- **Numerals.**  In base 10 every number but the least one comes out, in base 16 every
number that is not negative. -/
theorem itoa_iff (stack buf : Mem) (v : BitVec 32) (a : Nat) :
    (Leaves (itoa stack buf v.toInt a 10) a (Decimal v) ↔ v ≠ BitVec.intMin 32) ∧
    (Leaves (itoa stack buf v.toInt a 16) a (Hexadecimal v) ↔ 0 ≤ v.toInt) := by
  rw [leaves_iff base_ten, leaves_iff base_sixteen]
  exact ⟨itoaText_decimal_iff v, itoaText_hexadecimal_iff v⟩

/-- A sign alone, and nothing at all. -/
theorem leastNumber_lost :
    ¬ Leaves (itoa (fun _ => 0) (fun _ => 0) (BitVec.intMin 32).toInt 0 10) 0
      (Decimal (BitVec.intMin 32)) ∧
    ¬ Leaves (itoa (fun _ => 0) (fun _ => 0) (-1#32).toInt 0 16) 0 (Hexadecimal (-1#32)) := by
  rw [leaves_iff base_ten, leaves_iff base_sixteen, itoaText_decimal_iff, itoaText_hexadecimal_iff]
  decide

end FrogKernel.Itoa
