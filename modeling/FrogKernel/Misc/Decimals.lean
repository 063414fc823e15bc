import Mathlib.Data.List.DropRight
import FrogKernel.Misc.Truncation

/-!
# Padded decimal numbers (`misc/printf.c`, `libc/stdio.c`)

`PAD_AND_PUT` pads the text of a `%d` with its sign: zeros come in front of the sign.

Main result: `showsDecimal_iff`, when a `%d` with flags and a width shows its number.
-/

namespace FrogKernel.Vsnprintf

open FrogKernel.Bytes FrogKernel.CStrings FrogKernel.Int32 FrogKernel.Numerals FrogKernel.Traces

/-! ## Numbers as texts -/

/-- The text of a number without padding. -/
def natural (v : Int) : List Char8 := sign v ++ numeral 10 v.natAbs

/-- Decimal digits, with a single sign in front when the number is negative. -/
def Denotes (v : Int) (s : List Char8) : Prop :=
  ∃ ds, ds ≠ [] ∧ (∀ x ∈ ds, isDigit x = true) ∧
    (s = ds ∧ v = numeralValue 10 ds ∨ s = ch '-' :: ds ∧ v = -(numeralValue 10 ds : Int))

def isSpace (x : Char8) : Bool := x = ch ' '

def stripped (s : List Char8) : List Char8 := (s.dropWhile isSpace).rdropWhile isSpace

/-- What a `%d` with a width is for. -/
structure ShowsInt (v width : Int) (text : List Char8) : Prop where
  denotes : Denotes v (stripped text)
  length : (text.length : Int) = max width (natural v).length

theorem stripped_spaces {s : List Char8} (h : ∀ x ∈ s, isSpace x = false) (a b : Nat) :
    stripped (List.replicate a (ch ' ') ++ (s ++ List.replicate b (ch ' '))) = s := by
  have hspaces : ∀ n, ∀ x ∈ List.replicate n (ch ' '), isSpace x = true := by
    intro n x hx
    rw [List.eq_of_mem_replicate hx]
    decide
  rw [stripped, List.dropWhile_append_of_pos (hspaces a)]
  cases s with
  | nil =>
    rw [List.nil_append, List.dropWhile_eq_nil_iff.mpr (hspaces b), List.rdropWhile_nil]
  | cons x s =>
    have hlast : (x :: s).reverse.dropWhile isSpace = (x :: s).reverse := by
      refine List.dropWhile_eq_self_iff.mpr fun hlen => ?_
      rw [h _ (List.mem_reverse.mp (List.getElem_mem hlen))]
      exact Bool.false_ne_true
    have hx : ¬ isSpace x = true := by
      rw [h x List.mem_cons_self]
      exact Bool.false_ne_true
    rw [List.cons_append, List.dropWhile_cons_of_neg hx, ← List.cons_append, List.rdropWhile,
      List.reverse_append, List.reverse_replicate, List.dropWhile_append_of_pos (hspaces b), hlast,
      List.reverse_reverse]

theorem isSpace_of_digit : ∀ x : Char8, isDigit x = true → isSpace x = false := by
  decide +kernel

theorem numeral_isDigit {n : Nat} : ∀ x ∈ numeral 10 n, isDigit x = true := by
  have hdigit : ∀ d < 10, isDigit (digitChar d) = true := by decide
  intro x hx
  obtain ⟨d, hd, rfl⟩ := mem_numeral (by decide) hx
  exact hdigit d hd

theorem zeros_isDigit (n : Nat) : ∀ x ∈ List.replicate n (ch '0'), isDigit x = true := by
  intro x hx
  rw [List.eq_of_mem_replicate hx]
  decide

theorem natural_isSpace (v : Int) : ∀ x ∈ natural v, isSpace x = false := by
  intro x hx
  rcases List.mem_append.mp hx with hsign | hdigit
  · rw [sign] at hsign
    split at hsign
    · rw [List.mem_singleton.mp hsign]
      decide
    · cases hsign
  · exact isSpace_of_digit x (numeral_isDigit x hdigit)

theorem denotes_natural (v : Int) : Denotes v (natural v) := by
  refine ⟨numeral 10 v.natAbs, numeral_ne_nil _ _, numeral_isDigit, ?_⟩
  rw [numeralValue_numeral (by decide) (by decide), natural, sign]
  split
  case isTrue hneg => exact Or.inr ⟨rfl, by omega⟩
  case isFalse hpos => exact Or.inl ⟨rfl, by omega⟩

/-- Zeros in front of the sign: the sign is no digit. -/
theorem denotes_zeros_iff (v : Int) (n : Nat) :
    Denotes v (List.replicate n (ch '0') ++ natural v) ↔ ¬ (v < 0 ∧ 0 < n) := by
  by_cases hneg : v < 0
  · have hnatural : natural v = ch '-' :: numeral 10 v.natAbs := by
      rw [natural, sign, if_pos hneg, List.singleton_append]
    cases n with
    | zero => simpa using denotes_natural v
    | succ n =>
      refine iff_of_false ?_ (not_not.mpr ⟨hneg, Nat.succ_pos n⟩)
      rintro ⟨ds, -, hdigits, ⟨heq, -⟩ | ⟨heq, -⟩⟩
      · have hminus : ch '-' ∈ ds := by
          rw [← heq, hnatural]
          simp
        exact absurd (hdigits _ hminus) (by decide)
      · rw [List.replicate_succ, List.cons_append] at heq
        exact absurd (List.cons.inj heq).1 (by decide)
  · have hnatural : natural v = numeral 10 v.natAbs := by
      rw [natural, sign, if_neg hneg, List.nil_append]
    refine iff_of_true ?_ fun h => hneg h.1
    refine ⟨List.replicate n (ch '0') ++ numeral 10 v.natAbs,
      List.append_ne_nil_of_right_ne_nil _ (numeral_ne_nil _ _), ?_, Or.inl ⟨by rw [hnatural], ?_⟩⟩
    · intro x hx
      exact (List.mem_append.mp hx).elim (zeros_isDigit n x) (numeral_isDigit x)
    · rw [numeralValue_zeros, numeralValue_numeral (by decide) (by decide)]
      omega

/-- The padding at a width: spaces on one of the sides, or zeros in front. -/
theorem fitted_stripped (spec : Spec) (v : Int) :
    stripped (fitted spec (natural v)) =
      if spec.zeroPad = true ∧ spec.leftAlign = false then
        List.replicate (int32 (spec.width - (natural v).length)).toNat (ch '0') ++ natural v
      else natural v := by
  have hnatural := natural_isSpace v
  rw [fitted, padded]
  generalize (int32 (spec.width - (natural v).length)).toNat = pad
  cases spec.leftAlign with
  | true => simpa using stripped_spaces hnatural 0 pad
  | false =>
    cases spec.zeroPad with
    | false => simpa using stripped_spaces hnatural pad 0
    | true =>
      have hzeros : ∀ x ∈ List.replicate pad (ch '0') ++ natural v, isSpace x = false := by
        intro x hx
        exact (List.mem_append.mp hx).elim (fun h => isSpace_of_digit x (zeros_isDigit pad x h))
          (hnatural x)
      simpa using stripped_spaces hzeros 0 0

/-- **Padding a number.**  The text shows the number exactly when the padding is an `int`
and no zero comes in front of a sign. -/
theorem fitted_shows {v width : Int} (leftAlign zero : Bool) (precision : Int)
    (hv : (natural v).length ≤ 11) (hlo : -2 ^ 31 ≤ width) :
    ShowsInt v width (fitted ⟨leftAlign, zero && !leftAlign, int32 width, precision⟩ (natural v)) ↔
      (-2 ^ 31 ≤ width - (natural v).length ∧ width - (natural v).length < 2 ^ 31) ∧
        ¬ (v < 0 ∧ zero = true ∧ leftAlign = false ∧ (natural v).length < width) := by
  have hpad : int32 (int32 width - (natural v).length) = int32 (width - (natural v).length) := by
    have hmod := int32_emod width
    exact int32_congr (by omega)
  have hlength : ((fitted ⟨leftAlign, zero && !leftAlign, int32 width, precision⟩
      (natural v)).length : Int) = max width (natural v).length ↔
      -2 ^ 31 ≤ width - (natural v).length ∧ width - (natural v).length < 2 ^ 31 := by
    rw [← int32_toNat_iff (by omega), fitted_length, hpad]
    omega
  have hdenotes : width - (natural v).length < 2 ^ 31 → -2 ^ 31 ≤ width - (natural v).length →
      (Denotes v (stripped (fitted ⟨leftAlign, zero && !leftAlign, int32 width, precision⟩
        (natural v))) ↔
      ¬ (v < 0 ∧ zero = true ∧ leftAlign = false ∧ (natural v).length < width)) := by
    intro hhi hfit
    rw [fitted_stripped, hpad, int32_of_mem hfit hhi]
    by_cases hzeros : (zero && !leftAlign) = true ∧ leftAlign = false
    · have hzero : zero = true := ((Bool.and_eq_true _ _).mp hzeros.1).1
      rw [if_pos hzeros, denotes_zeros_iff]
      refine not_congr ⟨fun h => ⟨h.1, hzero, hzeros.2, by omega⟩, fun h => ⟨h.1, by omega⟩⟩
    · rw [if_neg hzeros]
      refine iff_of_true (denotes_natural v) fun h => hzeros ⟨?_, h.2.2.1⟩
      rw [h.2.1, h.2.2.1]
      rfl
  constructor
  · rintro ⟨hden, hlen⟩
    have hfit := hlength.mp hlen
    exact ⟨hfit, (hdenotes hfit.2 hfit.1).mp hden⟩
  · rintro ⟨hfit, hno⟩
    exact ⟨(hdenotes hfit.2 hfit.1).mpr hno, hlength.mpr hfit⟩

/-! ## The formats -/

/-- The width of a directive as it is written. -/
inductive Width where
  | digits (ds : List Char8)
  | star

namespace Width

def chars : Width → List Char8
  | .digits ds => ds
  | .star => [ch '*']

/-- The arguments that the width takes. -/
def words : Width → Nat
  | .digits _ => 0
  | .star => 1

def value (args : Nat → BitVec 32) : Width → Int
  | .digits ds => numeralValue 10 ds
  | .star => (args 0).toInt

/-- Digits without a zero in front, which would be a flag. -/
def Valid : Width → Prop
  | .digits ds => (∀ x ∈ ds, isDigit x = true) ∧ ds.head? ≠ some (ch '0')
  | .star => True

end Width

/-- `%[flags][width]d` -/
def intFormat (flags : List Char8) (width : Width) : List Char8 :=
  ch '%' :: (flags ++ (width.chars ++ [ch 'd']))

theorem digitValue_of_digit : ∀ x : Char8, isDigit x = true →
    (digitValue x : Int) = x.toNat - (ch '0').toNat := by
  decide +kernel

theorem foldl_nextDigit {ds : List Char8} (h : ∀ x ∈ ds, isDigit x = true) :
    ds.foldl nextDigit 0 = int32 (numeralValue 10 ds) := by
  induction ds using List.reverseRecOn with
  | nil => rfl
  | append_singleton ds x ih =>
    have hmod := int32_emod (numeralValue 10 ds)
    rw [List.foldl_append, ih fun y hy => h y (List.mem_append_left _ hy), List.foldl_cons,
      List.foldl_nil, nextDigit, ← digitValue_of_digit x (h x (by simp)), numeralValue_append]
    exact int32_congr (by omega)

section

variable {args : Nat → BitVec 32} {width : Width}

theorem isFlag_of_digit : ∀ x : Char8, isDigit x = true → x ≠ ch '0' →
    isFlag x = false ∧ x ≠ ch '*' := by
  decide +kernel

/-- The width begins with no flag, and with `*` only when it is one. -/
theorem width_head (hvalid : width.Valid) : ∃ x t, width.chars ++ [ch 'd'] = x :: t ∧
    isFlag x = false ∧ (x = ch '*' ↔ width = .star) := by
  cases width with
  | star => exact ⟨ch '*', [ch 'd'], rfl, by decide, by simp⟩
  | digits ds =>
    cases ds with
    | nil => exact ⟨ch 'd', [], rfl, by decide, iff_of_false (by decide) (by simp)⟩
    | cons x ds =>
      obtain ⟨hflag, hstar⟩ := isFlag_of_digit x (hvalid.1 x List.mem_cons_self)
        (fun hx => hvalid.2 (by rw [List.head?_cons, hx]))
      exact ⟨x, ds ++ [ch 'd'], rfl, hflag, iff_of_false hstar (by simp)⟩

theorem number_width (args : Nat → BitVec 32) (hvalid : width.Valid) : number args 0 (width.chars ++ [ch 'd']) =
    ⟨int32 (width.value args), width.words, [ch 'd']⟩ := by
  obtain ⟨x, t, heq, -, hstar⟩ := width_head hvalid
  rw [number]
  cases width with
  | star =>
    rw [Width.value, int32_of_mem (BitVec.le_toInt _) BitVec.toInt_lt]
    rfl
  | digits ds =>
    have hne : ¬ ((Width.digits ds).chars ++ [ch 'd']).head? = some (ch '*') := by
      rw [heq, List.head?_cons, Option.some.injEq, hstar]
      intro h
      cases h
    rw [if_neg hne]
    change (⟨((ds ++ [ch 'd']).takeWhile isDigit).foldl nextDigit 0, 0,
      (ds ++ [ch 'd']).dropWhile isDigit⟩ : Parsed Int) = ⟨int32 (numeralValue 10 ds), 0, [ch 'd']⟩
    rw [List.takeWhile_append_of_pos hvalid.1, List.dropWhile_append_of_pos hvalid.1,
      List.takeWhile_cons_of_neg (by decide), List.dropWhile_cons_of_neg (by decide),
      List.append_nil, foldl_nextDigit hvalid.1]

/-- The values that the parser takes from the flags and the width. -/
def intSpec (args : Nat → BitVec 32) (flags : List Char8) (width : Width) : Spec :=
  ⟨flags.contains (ch '-'), flags.contains (ch '0') && !flags.contains (ch '-'),
    int32 (width.value args), -1⟩

theorem specOf_intFormat (args : Nat → BitVec 32) {flags : List Char8} (hflags : ∀ x ∈ flags, isFlag x = true)
    (hvalid : width.Valid) : specOf args 0 (flags ++ (width.chars ++ [ch 'd'])) =
      ⟨intSpec args flags width, width.words, [ch 'd']⟩ := by
  obtain ⟨x, t, heq, hx, -⟩ := width_head hvalid
  have hnot : ¬ isFlag x = true := by
    rw [hx]
    exact Bool.false_ne_true
  have htake : (flags ++ (width.chars ++ [ch 'd'])).takeWhile isFlag = flags := by
    rw [List.takeWhile_append_of_pos hflags, heq, List.takeWhile_cons_of_neg hnot, List.append_nil]
  have hdrop : (flags ++ (width.chars ++ [ch 'd'])).dropWhile isFlag = width.chars ++ [ch 'd'] := by
    rw [List.dropWhile_append_of_pos hflags, heq, List.dropWhile_cons_of_neg hnot]
  have hnumber := number_width args hvalid
  rw [specOf, htake, hdrop, hnumber]
  rfl

theorem pieces_intFormat (args : Nat → BitVec 32) {flags : List Char8} (hflags : ∀ x ∈ flags, isFlag x = true)
    (hvalid : width.Valid) : formatPieces args (intFormat flags width) =
      [.directive (intSpec args flags width) width.words .int] := by
  have hspec := specOf_intFormat args hflags hvalid
  have hrest : (specOf args 0 (flags ++ (width.chars ++ [ch 'd']))).rest = ch 'd' :: [] := by
    rw [hspec]
  have hconv : conversion (ch 'd') = .int := by decide
  rw [formatPieces, intFormat, List.length_cons, pieces_directive hrest, pieces_nil, hspec, hconv]

end

/-! ## The whole call -/

section

variable {c : Call} {fmt size : Nat} {flags : List Char8} {width : Width}

/-- The buffer has room for everything that is printed, and for the NUL. -/
def Roomy (c : Call) (fmt size : Nat) : Prop :=
  ∀ text, (unbounded c fmt).result = .ok text → text.length < size

/-- The text in the buffer shows the number. -/
def Shows (c : Call) (buf : Mem) (size fmt : Nat) (v width : Int) : Prop :=
  ∃ buf' r text, (vsnprintf c buf size fmt).result = .ok (buf', r) ∧ CStr buf' 0 text ∧
    ShowsInt v width text

theorem fitted_ne_zero (spec : Spec) (v : Int) : ∀ x ∈ fitted spec (natural v), x ≠ 0 := by
  have hnatural : ∀ x ∈ natural v, x ≠ 0 := by
    have hdigit : ∀ x : Char8, isDigit x = true → x ≠ 0 := by decide +kernel
    intro x hx
    rcases List.mem_append.mp hx with hsign | hnum
    · rw [sign] at hsign
      split at hsign
      · rw [List.mem_singleton.mp hsign]
        decide
      · cases hsign
    · exact hdigit x (numeral_isDigit x hnum)
  have hpad : ∀ (y : Char8) (n : Nat), y ≠ 0 → ∀ x ∈ List.replicate n y, x ≠ 0 := by
    intro y n hy x hx
    rwa [List.eq_of_mem_replicate hx]
  intro x hx
  rw [fitted, padded] at hx
  split at hx
  · exact (List.mem_append.mp hx).elim (hnatural x) (hpad _ _ (by decide) x)
  · refine (List.mem_append.mp hx).elim (hpad _ _ ?_ x) (hnatural x)
    split <;> decide

theorem natural_length_le (c : Call) (k : Nat) : (natural (c.args k).toInt).length ≤ 11 := by
  have h := numeral_int_le (BitVec.le_toInt (c.args k)) BitVec.toInt_lt
  rw [natural, List.length_append]
  omega

theorem intText_natural (v : Int) : intText (-1) v = natural v := by
  have hnone : ((-1 : Int) - (numeral 10 v.natAbs).length).toNat = 0 := by omega
  rw [intText, precise, hnone, List.replicate_zero, List.nil_append, natural]

theorem int_fits (hflags : ∀ x ∈ flags, isFlag x = true) (hvalid : width.Valid) :
    ∀ piece ∈ formatPieces c.args (intFormat flags width), piece.Fits c := by
  intro piece hpiece
  rw [pieces_intFormat _ hflags hvalid, List.mem_singleton] at hpiece
  have hsign := (numeral_int_le (BitVec.le_toInt (c.args width.words)) BitVec.toInt_lt).1
  subst hpiece
  change (-1 : Int) + _ ≤ 31
  omega

theorem int_text (hflags : ∀ x ∈ flags, isFlag x = true) (hvalid : width.Valid) :
    formatText c (intFormat flags width) =
      fitted (intSpec c.args flags width) (natural (c.args width.words).toInt) := by
  rw [formatText, pieces_intFormat _ hflags hvalid, List.flatMap_singleton]
  exact congrArg (fitted _) (intText_natural _)

/-- What a roomy buffer holds. -/
theorem int_result (hflags : ∀ x ∈ flags, isFlag x = true) (hvalid : width.Valid)
    (h : CStr c.mem fmt (intFormat flags width)) (buf : Mem) (hroom : Roomy c fmt size)
    (hlt : size < 2 ^ 32) : ∃ buf' r, (vsnprintf c buf size fmt).result = .ok (buf', r) ∧
      CStr buf' 0 (fitted (intSpec c.args flags width) (natural (c.args width.words).toInt)) := by
  have hfits := int_fits (c := c) hflags hvalid
  have hlen := hroom _ (unbounded_result h hfits)
  obtain ⟨⟨buf', hcut⟩, -⟩ := vsnprintf_gives h hfits buf (Nat.zero_lt_of_lt hlen) hlt
  have hholds := hcut.holds
  rw [List.take_of_length_le (by omega), int_text hflags hvalid] at hholds
  exact ⟨buf', _, hcut.result, cstr_iff.mpr ⟨hholds, fitted_ne_zero _ _⟩⟩

/-- **A padded `%d`** shows its number exactly when the padding is an `int`, and no zeros
come in front of a minus sign. -/
theorem showsDecimal_iff (hflags : ∀ x ∈ flags, isFlag x = true) (hvalid : width.Valid)
    (h : CStr c.mem fmt (intFormat flags width)) (buf : Mem) (hroom : Roomy c fmt size)
    (hlt : size < 2 ^ 32) :
    Shows c buf size fmt (c.args width.words).toInt (width.value c.args) ↔
      (-2 ^ 31 ≤ width.value c.args - (natural (c.args width.words).toInt).length ∧
        width.value c.args - (natural (c.args width.words).toInt).length < 2 ^ 31) ∧
      ¬ ((c.args width.words).toInt < 0 ∧ ch '0' ∈ flags ∧ ch '-' ∉ flags ∧
        (natural (c.args width.words).toInt).length < width.value c.args) := by
  obtain ⟨buf', r, hresult, hstr⟩ := int_result hflags hvalid h buf hroom hlt
  have hwidth : -2 ^ 31 ≤ width.value c.args := by
    cases width with
    | digits ds => exact Int.le_trans (by decide) (Int.natCast_nonneg _)
    | star => exact BitVec.le_toInt _
  have hshows := fitted_shows (flags.contains (ch '-')) (flags.contains (ch '0')) (-1)
    (natural_length_le c width.words) hwidth
  rw [List.contains_iff_mem, ← Bool.not_eq_true, List.contains_iff_mem] at hshows
  rw [← hshows]
  constructor
  · rintro ⟨buf'', r', text, hresult', hstr', htext⟩
    obtain ⟨rfl, rfl⟩ : buf' = buf'' ∧ r = r' := by
      have heq := hresult.symm.trans hresult'
      simpa using heq
    rwa [hstr'.unique hstr] at htext
  · exact fun htext => ⟨buf', r, _, hresult, hstr, htext⟩

theorem roomy_of_length (hflags : ∀ x ∈ flags, isFlag x = true) (hvalid : width.Valid)
    (h : CStr c.mem fmt (intFormat flags width))
    (hlen : (fitted (intSpec c.args flags width)
      (natural (c.args width.words).toInt)).length < size) : Roomy c fmt size := by
  intro text htext
  rw [unbounded_result h (int_fits hflags hvalid), int_text hflags hvalid] at htext
  cases htext
  exact hlen

end

/-- `"%-5d"` with -42 -/
def leftMinus : Call :=
  callOf (intFormat [ch '-'] (.digits [ch '5'])) (fun _ => BitVec.ofInt 32 (-42)) (by decide)

theorem leftMinus_shows : Shows leftMinus (fun _ => 0) 16 0x1000 (-42) 5 := by
  have hformat : CStr leftMinus.mem 0x1000 (intFormat [ch '-'] (.digits [ch '5'])) :=
    callOf_format _ _ (by decide)
  have hflags : ∀ x ∈ [ch '-'], isFlag x = true := by decide
  have hvalid : (Width.digits [ch '5']).Valid := ⟨by decide, by decide⟩
  have hroom : Roomy leftMinus 0x1000 16 := roomy_of_length hflags hvalid hformat (by decide)
  exact (showsDecimal_iff hflags hvalid hformat (fun _ => 0) hroom (by decide)).mpr (by decide)

/-- `"%05d"` with -42 -/
def paddedMinus : Call :=
  callOf (intFormat [ch '0'] (.digits [ch '5'])) (fun _ => BitVec.ofInt 32 (-42)) (by decide)

/-- It prints `00-42`. -/
theorem paddedMinus_garbled :
    Roomy paddedMinus 0x1000 16 ∧ ¬ Shows paddedMinus (fun _ => 0) 16 0x1000 (-42) 5 := by
  have hformat : CStr paddedMinus.mem 0x1000 (intFormat [ch '0'] (.digits [ch '5'])) :=
    callOf_format _ _ (by decide)
  have hflags : ∀ x ∈ [ch '0'], isFlag x = true := by decide
  have hvalid : (Width.digits [ch '5']).Valid := ⟨by decide, by decide⟩
  have hroom : Roomy paddedMinus 0x1000 16 := roomy_of_length hflags hvalid hformat (by decide)
  refine ⟨hroom, ?_⟩
  rintro ⟨buf', r, text, hresult, hstr, htext⟩
  obtain ⟨buf'', r', hresult', hstr'⟩ := int_result hflags hvalid hformat (fun _ => 0) hroom
    (by decide)
  obtain ⟨rfl, rfl⟩ : buf' = buf'' ∧ r = r' := by
    have heq := hresult.symm.trans hresult'
    simpa using heq
  have hlen : (natural (-42)).length ≤ 11 := by decide
  have hgarbled := fitted_shows false true (-1) hlen (show -2 ^ 31 ≤ (5 : Int) by decide)
  rw [hstr.unique hstr'] at htext
  exact absurd (hgarbled.mp htext) (by decide)

end FrogKernel.Vsnprintf
