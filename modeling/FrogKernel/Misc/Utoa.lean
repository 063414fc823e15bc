import Mathlib.Data.List.Induction
import FrogKernel.Lib.Numerals
import FrogKernel.Lib.Traces

/-!
# Unsigned numbers as text (`misc/util.c`)

`utoa` takes the digits of a number off its end into an array of its own, and
then copies them back in the other order.

Main results: `utoa_spec`, it writes the numeral, and all its writes are inside;
`utoa_writes`, what that says of the characters.
-/

namespace FrogKernel.Utoa

open FrogKernel.Bytes FrogKernel.CStrings FrogKernel.Numerals FrogKernel.Traces

/-- A write to `tmp`, or to an address of the buffer. -/
inductive Write where
  | tmp (i : Nat)
  | buf (a : Nat)

/-- `tmp[i] = c` -/
def writeTmp (tmp : Mem) (i : Nat) (c : Char8) : Traced Unit Write Mem :=
  emit [.tmp i] (.ok (write8 tmp i c.toNat))

/-- `*a = c` -/
def writeBuf (buf : Mem) (a : Nat) (c : Char8) : Traced Unit Write Mem :=
  emit [.buf a] (.ok (write8 buf a c.toNat))

/-- `while (value > 0)`, with at most `n` rounds; the result is `tmp` and `i`. -/
def utoaDigits (base : Nat) : Nat → Nat → Mem → Nat → Traced Unit Write (Mem × Nat)
  | 0, _, _, _ => silent (.error ())
  | n + 1, value, tmp, i =>
    if value > 0 then do
      let tmp ← writeTmp tmp i (digitChar (value % base))
      utoaDigits base n (value / base) tmp (i + 1)
    else pure (tmp, i)

/-- `while (i > 0)`; the result is the buffer and the address behind the digits. -/
def utoaCopy (tmp : Mem) : Nat → Mem → Nat → Traced Unit Write (Mem × Nat)
  | 0, buf, a => pure (buf, a)
  | i + 1, buf, a => do
    let buf ← writeBuf buf a (tmp i)
    utoaCopy tmp i buf (a + 1)

/-- `utoa` with the buffer at `a`; `stack` is what `tmp` holds before. -/
def utoa (stack buf : Mem) (value a base : Nat) : Traced Unit Write Mem :=
  if value = 0 then do
    let buf ← writeBuf buf a (ch '0')
    writeBuf buf (a + 1) 0
  else do
    let digits ← utoaDigits base ROUNDS value stack 0
    let copied ← utoaCopy digits.1 digits.2 buf a
    writeBuf copied.1 copied.2 0

/-! ## The two loops -/

section

variable {base : Nat} {P : Write → Prop}

/-- The digits of `value`, the last one first. -/
theorem utoaDigits_spec (hbase : 1 < base) (n : Nat) : ∀ (value : Nat) (tmp : Mem) (i : Nat),
    (Nat.digits base value).length < n →
    (∀ j < i + (Nat.digits base value).length, P (.tmp j)) → ∃ tmp',
      Gives P (utoaDigits base n value tmp i) (tmp', i + (Nat.digits base value).length) ∧
      Holds tmp' i ((Nat.digits base value).map digitChar) ∧ ∀ x < i, tmp' x = tmp x := by
  induction n with
  | zero => intro value tmp i h; omega
  | succ n ih =>
    intro value tmp i h hP
    rw [utoaDigits]
    by_cases hvalue : value > 0
    · have hcons := Nat.digits_eq_cons_digits_div hbase (Nat.ne_of_gt hvalue)
      have hlen : i + (Nat.digits base value).length =
          i + 1 + (Nat.digits base (value / base)).length := by
        rw [hcons, List.length_cons]
        omega
      obtain ⟨tmp', hgives, hholds, hbefore⟩ := ih (value / base)
        (write8 tmp i (digitChar (value % base)).toNat) (i + 1) (by omega)
        (fun j hj => hP j (by omega))
      rw [if_pos hvalue, hlen]
      refine ⟨tmp', Gives.bind (gives_emit (hP i (by omega)) _) hgives, ?_, ?_⟩
      · rw [hcons, List.map_cons]
        refine ⟨?_, hholds⟩
        rw [hbefore i (Nat.lt_succ_self i), write8_char]
      · intro x hx
        rw [hbefore x (Nat.lt_succ_of_lt hx), write8_ne _ _ (Nat.ne_of_lt hx)]
    · obtain rfl : value = 0 := by omega
      rw [if_neg hvalue, Nat.digits_zero]
      exact ⟨tmp, gives_pure _, trivial, fun _ _ => rfl⟩

/-- The digits come out in the other order. -/
theorem utoaCopy_spec {tmp : Mem} (ds : List Char8) : ∀ (buf : Mem) (a : Nat), Holds tmp 0 ds →
    (∀ b, a ≤ b → b < a + ds.length → P (.buf b)) → ∃ buf',
      Gives P (utoaCopy tmp ds.length buf a) (buf', a + ds.length) ∧ Holds buf' a ds.reverse ∧
      ∀ x, x < a ∨ a + ds.length ≤ x → buf' x = buf x := by
  induction ds using List.reverseRecOn with
  | nil =>
    intro buf a _ _
    exact ⟨buf, gives_pure _, trivial, fun _ _ => rfl⟩
  | append_singleton ds d ih =>
    intro buf a h hP
    obtain ⟨hds, hd, -⟩ := holds_append.mp h
    have hlen : a + (ds ++ [d]).length = a + 1 + ds.length := by
      rw [List.length_append, List.length_singleton]
      omega
    obtain ⟨buf', hgives, hholds, hsame⟩ := ih (write8 buf a d.toNat) (a + 1) hds
      (fun b hlo hhi => hP b (by omega) (by omega))
    rw [hlen, List.length_append, List.length_singleton, utoaCopy]
    rw [Nat.zero_add] at hd
    rw [hd]
    refine ⟨buf', Gives.bind (gives_emit (hP a (Nat.le_refl a) (by omega)) _) hgives, ?_, ?_⟩
    · rw [List.reverse_append, List.reverse_singleton, List.singleton_append]
      refine ⟨?_, hholds⟩
      rw [hsame a (Or.inl (Nat.lt_succ_self a)), write8_char]
    · intro x hx
      rw [hsame x (by omega), write8_ne _ _ (by omega)]

/-- The end of the call: the digits of `tmp` in the other order, and a NUL. -/
theorem copied_spec {tmp : Mem} {ds : List Char8} (buf : Mem) {a : Nat} (h : Holds tmp 0 ds)
    (hne : ∀ c ∈ ds, c ≠ 0) (hP : ∀ b, a ≤ b → b ≤ a + ds.length → P (.buf b)) : ∃ buf',
      Gives P (utoaCopy tmp ds.length buf a >>= fun copied => writeBuf copied.1 copied.2 0) buf' ∧
      CStr buf' a ds.reverse ∧ ∀ x < a, buf' x = buf x := by
  obtain ⟨buf', hgives, hholds, hsame⟩ := utoaCopy_spec ds buf a h
    (fun b hlo hhi => hP b hlo (Nat.le_of_lt hhi))
  have hcstr := cstr_write8 hholds fun c hc => hne c (List.mem_reverse.mp hc)
  rw [List.length_reverse] at hcstr
  refine ⟨_, Gives.bind hgives
    (gives_emit (hP _ (Nat.le_add_right _ _) (Nat.le_refl _)) _), hcstr, ?_⟩
  intro x hx
  have hbehind : x ≠ a + ds.length := by omega
  exact (write8_ne _ _ hbehind).trans (hsame x (Or.inl hx))

/-! ## `utoa` -/

/-- A base that the digits are enough for. -/
def Base (base : Nat) : Prop := 2 ≤ base ∧ base ≤ 16

theorem base_ten : Base 10 := ⟨by decide, by decide⟩

theorem base_sixteen : Base 16 := ⟨by decide, by decide⟩

theorem Base.ne_zero (hbase : Base base) (value : Nat) : ∀ c ∈ numeral base value, c ≠ 0 := by
  intro c hc
  obtain ⟨d, hd, rfl⟩ := mem_numeral hbase.1 hc
  exact digitChar_ne_zero d (Nat.lt_of_lt_of_le hd hbase.2)

/-- A number of 32 bits has no more than 32 digits. -/
theorem Base.digits_length_le {value : Nat} (hbase : Base base) (hvalue : value < 2 ^ 32) :
    (Nat.digits base value).length ≤ 32 :=
  (Nat.digits_length_le_iff hbase.1 value).mpr
    (Nat.lt_of_lt_of_le hvalue (Nat.pow_le_pow_left hbase.1 32))

/-- **`utoa`.**  A number of 32 bits comes out as its numeral, with a NUL behind;
nothing in front of the buffer changes, and `tmp` is never exceeded. -/
theorem utoa_spec {value : Nat} (hbase : Base base) (hvalue : value < 2 ^ 32) (stack buf : Mem)
    (a : Nat) (htmp : ∀ i < 32, P (.tmp i))
    (hbuf : ∀ b, a ≤ b → b ≤ a + (numeral base value).length → P (.buf b)) : ∃ buf',
      Gives P (utoa stack buf value a base) buf' ∧ CStr buf' a (numeral base value) ∧
      ∀ x < a, buf' x = buf x := by
  have hne := hbase.ne_zero value
  have hdigits := hbase.digits_length_le hvalue
  unfold utoa
  by_cases h0 : value = 0
  · have hnum : numeral base value = [ch '0'] := if_pos h0
    rw [if_pos h0]
    rw [hnum] at hne hbuf ⊢
    have hholds : Holds (write8 buf a (ch '0').toNat) a [ch '0'] := ⟨write8_self _ _ _, trivial⟩
    refine ⟨_, Gives.bind (gives_emit (hbuf a (by simp) (by simp)) _)
      (gives_emit (hbuf (a + 1) (by simp) (by simp)) _), cstr_write8 hholds hne, ?_⟩
    intro x hx
    rw [write8_ne _ _ (by omega), write8_ne _ _ (by omega)]
  · have hnum : numeral base value = ((Nat.digits base value).map digitChar).reverse := if_neg h0
    have hlen : ((Nat.digits base value).map digitChar).length = (Nat.digits base value).length :=
      List.length_map _
    rw [if_neg h0]
    rw [hnum] at hne hbuf ⊢
    rw [List.length_reverse] at hbuf
    obtain ⟨tmp, hgives, hholds, -⟩ := utoaDigits_spec hbase.1 ROUNDS value stack 0
      (Nat.lt_of_le_of_lt hdigits (by decide)) (fun j hj => htmp j (by omega))
    obtain ⟨buf', hgives', hcstr, hsame⟩ := copied_spec buf hholds
      (fun c hc => hne c (List.mem_reverse.mpr hc)) hbuf
    rw [Nat.zero_add] at hgives
    rw [hlen] at hgives'
    exact ⟨buf', Gives.bind hgives hgives', hcstr, hsame⟩

end

/-! ## The characters -/

/-- No more than 32 digits of the base, without leading zeros, and their value. -/
structure Writes (base value : Nat) (s : List Char8) : Prop where
  length : s.length ≤ 32
  ne_nil : s ≠ []
  digits : ∀ c ∈ s, ∃ d < base, c = digitChar d
  leading : s.head? = some (ch '0') → value = 0
  value : numeralValue base s = value

/-- The writes that `utoa` may do for a text of `len` characters at `a`. -/
def Inside (a len : Nat) : Write → Prop
  | .tmp i => i < 32
  | .buf b => a ≤ b ∧ b ≤ a + len

theorem digitChar_eq_zero : ∀ d < 16, digitChar d = ch '0' → d = 0 := by
  decide

/-- The first digit of a number that is not zero. -/
theorem Base.head_numeral {base value : Nat} (hbase : Base base)
    (h : (numeral base value).head? = some (ch '0')) : value = 0 := by
  by_contra hvalue
  rw [numeral, if_neg hvalue, List.head?_reverse, List.getLast?_map, Option.map_eq_some_iff] at h
  obtain ⟨d, hd, hzero⟩ := h
  have hne : Nat.digits base value ≠ [] := Nat.digits_ne_nil_iff_ne_zero.mpr hvalue
  obtain rfl : (Nat.digits base value).getLast hne = d := by
    rw [List.getLast?_eq_some_getLast hne] at hd
    exact Option.some.inj hd
  have hlt := Nat.digits_lt_base hbase.1 (List.getLast_mem hne)
  exact Nat.getLast_digit_ne_zero base hvalue
    (digitChar_eq_zero _ (Nat.lt_of_lt_of_le hlt hbase.2) hzero)

theorem Base.writes {base value : Nat} (hbase : Base base) (hvalue : value < 2 ^ 32) :
    Writes base value (numeral base value) where
  length := numeral_length_le hbase.1 (by decide)
    (Nat.lt_of_lt_of_le hvalue (Nat.pow_le_pow_left hbase.1 32))
  ne_nil := numeral_ne_nil base value
  digits := fun _ hc => mem_numeral hbase.1 hc
  leading := hbase.head_numeral
  value := numeralValue_numeral hbase.1 hbase.2 value

/-- **The text of `utoa`.** -/
theorem utoa_writes {base value : Nat} (hbase : Base base) (hvalue : value < 2 ^ 32)
    (stack buf : Mem) (a : Nat) : ∃ buf' s, Gives (Inside a s.length) (utoa stack buf value a base) buf' ∧
      CStr buf' a s ∧ Writes base value s := by
  obtain ⟨buf', hgives, hcstr, -⟩ := utoa_spec (P := Inside a (numeral base value).length) hbase
    hvalue stack buf a (fun _ hi => hi) (fun _ hlo hhi => ⟨hlo, hhi⟩)
  exact ⟨buf', _, hgives, hcstr, hbase.writes hvalue⟩

/-- All 32 digits. -/
theorem allOnes_writes : ∃ buf' s,
    Gives (Inside 0 s.length) (utoa (fun _ => 0) (fun _ => 0) 0xffffffff 0 2) buf' ∧
      CStr buf' 0 s ∧ Writes 2 0xffffffff s :=
  utoa_writes ⟨by decide, by decide⟩ (by decide) _ _ _

end FrogKernel.Utoa
