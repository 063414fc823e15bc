import FrogKernel.Misc.Vsnprintf

/-!
# What a format prints (`misc/printf.c`, `libc/stdio.c`)

`pieces` takes a format apart as a list of characters, and `directiveText` is the text
of a directive.

Main result: `loop_gives`, whatever the way to put a character, `vsnprintf` puts the
texts of the pieces, one after the other, and stays inside the format and the `tmp` arrays.
-/

namespace FrogKernel.Vsnprintf

open FrogKernel.Bytes FrogKernel.CStrings FrogKernel.Int32 FrogKernel.Numerals FrogKernel.Traces
open FrogKernel.Utoa (Base base_ten base_sixteen utoa_spec)

/-! ## The pieces of a format -/

/-- Something read off a format, the next argument and the rest of the format. -/
structure Parsed (α : Type) where
  value : α
  next : Nat
  rest : List Char8

def number (args : Nat → BitVec 32) (k : Nat) (t : List Char8) : Parsed Int :=
  if t.head? = some (ch '*') then ⟨(args k).toInt, k + 1, t.tail⟩
  else ⟨(t.takeWhile isDigit).foldl nextDigit 0, k, t.dropWhile isDigit⟩

def precisionOf (args : Nat → BitVec 32) (k : Nat) (t : List Char8) : Parsed Int :=
  if t.head? = some (ch '.') then number args k t.tail else ⟨-1, k, t⟩

def specOf (args : Nat → BitVec 32) (k : Nat) (t : List Char8) : Parsed Spec :=
  let flags := t.takeWhile isFlag
  let width := number args k (t.dropWhile isFlag)
  let precision := precisionOf args width.next width.rest
  ⟨⟨flags.contains (ch '-'), flags.contains (ch '0') && !flags.contains (ch '-'), width.value,
    precision.value⟩, precision.next, precision.rest⟩

/-- An ordinary character, a directive with its first argument, or `%` and no conversion
before the end of the format. -/
inductive Piece where
  | text (x : Char8)
  | directive (spec : Spec) (k : Nat) (conv : Conversion)
  | incomplete
deriving DecidableEq

/-- The pieces of a format that has no more than `n` characters, from argument `k` on. -/
def pieces (args : Nat → BitVec 32) : Nat → Nat → List Char8 → List Piece
  | 0, _, _ => []
  | _ + 1, _, [] => []
  | n + 1, k, x :: t =>
    if x ≠ ch '%' then .text x :: pieces args n k t
    else
      let spec := specOf args k t
      match spec.rest with
      | [] => [.incomplete]
      | x :: t =>
        .directive spec.value spec.next (conversion x) ::
          pieces args n (spec.next + argWords (conversion x)) t

def formatPieces (args : Nat → BitVec 32) (format : List Char8) : List Piece :=
  pieces args format.length 0 format

theorem pieces_nil (args : Nat → BitVec 32) (n k : Nat) : pieces args n k [] = [] := by
  cases n <;> rfl

section

variable {args : Nat → BitVec 32} {n k : Nat} {t : List Char8}

theorem pieces_text {x : Char8} (hx : x ≠ ch '%') :
    pieces args (n + 1) k (x :: t) = .text x :: pieces args n k t :=
  if_pos hx

theorem pieces_incomplete (h : (specOf args k t).rest = []) :
    pieces args (n + 1) k (ch '%' :: t) = [.incomplete] := by
  rw [pieces, if_neg (not_not.mpr rfl)]
  dsimp only
  rw [h]

theorem pieces_directive {x : Char8} {u : List Char8} (h : (specOf args k t).rest = x :: u) :
    pieces args (n + 1) k (ch '%' :: t) =
      .directive (specOf args k t).value (specOf args k t).next (conversion x) ::
        pieces args n ((specOf args k t).next + argWords (conversion x)) u := by
  rw [pieces, if_neg (not_not.mpr rfl)]
  dsimp only
  rw [h]

end

/-! ## Their texts -/

/-- A text of length `len`, padded to the width. -/
def padded (spec : Spec) (len : Int) (s : List Char8) : List Char8 :=
  let pad := (int32 (spec.width - len)).toNat
  if spec.leftAlign then s ++ List.replicate pad (ch ' ')
  else List.replicate pad (if spec.zeroPad then ch '0' else ch ' ') ++ s

/-- Digits with zeros in front, up to the precision. -/
def precise (precision : Int) (ds : List Char8) : List Char8 :=
  List.replicate (precision - ds.length).toNat (ch '0') ++ ds

def sign (v : Int) : List Char8 := if v < 0 then [ch '-'] else []

/-- The number of characters that `%s` takes from a string. -/
def stringLen (spec : Spec) (s : List Char8) : Int :=
  if spec.precision ≥ 0 ∧ spec.precision < int32 s.length then spec.precision else int32 s.length

section

variable (c : Call)

/-- The string that an argument points to. -/
def stringArg (k : Nat) : List Char8 :=
  if c.args k = 0 then nullText else c.stringAt (c.args k).toNat

def intText (precision v : Int) : List Char8 := sign v ++ precise precision (numeral 10 v.natAbs)

def doubleText (spec : Spec) (k : Nat) : List Char8 :=
  c.ftoa (c.args k) (c.args (k + 1)) (if spec.precision ≥ 0 then spec.precision else 6)

/-- A text padded as it is. -/
def fitted (spec : Spec) (s : List Char8) : List Char8 := padded spec s.length s

theorem fitted_length (spec : Spec) (s : List Char8) :
    (fitted spec s).length = (int32 (spec.width - s.length)).toNat + s.length := by
  rw [fitted, padded]
  split
  · rw [List.length_append, List.length_replicate, Nat.add_comm]
  · rw [List.length_append, List.length_replicate]

def directiveText (spec : Spec) (k : Nat) : Conversion → List Char8
  | .char => fitted spec [(c.args k).setWidth 8]
  | .string =>
    padded spec (stringLen spec (stringArg c k))
      ((stringArg c k).take (stringLen spec (stringArg c k)).toNat)
  | .int => fitted spec (intText spec.precision (c.args k).toInt)
  | .unsigned => fitted spec (precise spec.precision (numeral 10 (c.args k).toNat))
  | .hex => fitted spec (precise spec.precision (numeral 16 (c.args k).toNat))
  | .pointer => fitted spec ([ch '0', ch 'x'] ++ numeral 16 (c.args k).toNat)
  | .double =>
    padded spec (int32 (doubleText c spec k).length)
      ((doubleText c spec k).take (int32 (doubleText c spec k).length).toNat)
  | .percent => [ch '%']
  | .unknown => []

def pieceText : Piece → List Char8
  | .text x => [x]
  | .directive spec k conv => directiveText c spec k conv
  | .incomplete => []

/-- The bytes of `tmp` are enough. -/
def Fits (spec : Spec) (k : Nat) : Conversion → Prop
  | .int => spec.precision + (sign (c.args k).toInt).length ≤ 31
  | .unsigned | .hex => spec.precision ≤ 31
  | _ => True

/-- Every directive is complete, and its `tmp` is big enough. -/
def Piece.Fits : Piece → Prop
  | .text _ => True
  | .directive spec k conv => Vsnprintf.Fits c spec k conv
  | .incomplete => False

end

/-! ## Reading the format -/

section

variable {c : Call} {start stop p k : Nat} {t : List Char8} {P : Access → Prop}

/-- The rest `t` of the format, which lies between `start` and its NUL at `stop`, is at `p`. -/
structure At (c : Call) (start stop p : Nat) (t : List Char8) : Prop where
  str : CStr c.mem p t
  low : start ≤ p
  high : p + t.length = stop

theorem At.tail {x : Char8} (h : At c start stop p (x :: t)) : At c start stop (p + 1) t := by
  have hhigh := h.high
  rw [List.length_cons] at hhigh
  exact ⟨h.str.2.2, Nat.le_succ_of_le h.low, by omega⟩

/-- `*fmt`, the NUL included. -/
theorem At.readFmt (h : At c start stop p t) (hfmt : ∀ q, start ≤ q → q ≤ stop → P (.fmt q)) :
    Gives P (readFmt c p) (t.headD 0) := by
  have hhead : c.mem p = t.headD 0 := by
    cases t with
    | nil => exact h.str
    | cons x t => exact h.str.1
  rw [← hhead]
  exact gives_emit (hfmt p h.low (h.high ▸ Nat.le_add_right _ _)) _

/-- A character that is not a NUL is the next one exactly when it is the head. -/
theorem headD_eq_iff {x : Char8} (hx : x ≠ 0) : t.headD 0 = x ↔ t.head? = some x := by
  cases t with
  | nil => exact iff_of_false hx.symm (by simp)
  | cons y t => simp

theorem At.length_lt (h : At c start stop p t) : t.length < ROUNDS := c.cstr_length_lt h.str

variable (hfmt : ∀ q, start ≤ q → q ≤ stop → P (.fmt q))

include hfmt

theorem scanFlags_gives (h : At c start stop p t) {n : Nat} (hn : t.length < n) (l z : Bool) :
    ∃ q, Gives P (scanFlags c n p l z) (q, l || (t.takeWhile isFlag).contains (ch '-'),
        z || (t.takeWhile isFlag).contains (ch '0')) ∧
      At c start stop q (t.dropWhile isFlag) := by
  induction t generalizing n p l z with
  | nil =>
    obtain ⟨n, rfl⟩ : ∃ j, n = j + 1 := ⟨n - 1, by omega⟩
    refine ⟨p, ?_, h⟩
    rw [scanFlags, List.takeWhile_nil, List.contains_nil, List.contains_nil, Bool.or_false,
      Bool.or_false]
    exact Gives.bind (h.readFmt hfmt) (gives_pure _)
  | cons x t ih =>
    obtain ⟨n, rfl⟩ : ∃ j, n = j + 1 := ⟨n - 1, by omega⟩
    rw [scanFlags]
    by_cases hx : isFlag x = true
    · obtain ⟨q, hgives, hat⟩ := ih h.tail (by simpa using hn) (l || x = ch '-') (z || x = ch '0')
      have hcontains : ∀ a : Char8, ((x :: t.takeWhile isFlag).contains a) =
          (decide (x = a) || (t.takeWhile isFlag).contains a) := by
        intro a
        rw [List.contains_cons, BEq.comm]
        rfl
      rw [List.takeWhile_cons_of_pos hx, List.dropWhile_cons_of_pos hx, hcontains, hcontains,
        ← Bool.or_assoc, ← Bool.or_assoc]
      refine ⟨q, Gives.bind (h.readFmt hfmt) ?_, hat⟩
      rw [List.headD_cons, if_pos hx]
      exact hgives
    · rw [List.takeWhile_cons_of_neg hx, List.dropWhile_cons_of_neg hx, List.contains_nil,
        List.contains_nil, Bool.or_false, Bool.or_false]
      refine ⟨p, Gives.bind (h.readFmt hfmt) ?_, h⟩
      rw [List.headD_cons, if_neg hx]
      exact gives_pure _

theorem scanDigits_gives (h : At c start stop p t) {n : Nat} (hn : t.length < n) (v : Int) :
    ∃ q, Gives P (scanDigits c n p v) (q, (t.takeWhile isDigit).foldl nextDigit v) ∧
      At c start stop q (t.dropWhile isDigit) := by
  induction t generalizing n p v with
  | nil =>
    obtain ⟨n, rfl⟩ : ∃ j, n = j + 1 := ⟨n - 1, by omega⟩
    exact ⟨p, Gives.bind (h.readFmt hfmt) (gives_pure _), h⟩
  | cons x t ih =>
    obtain ⟨n, rfl⟩ : ∃ j, n = j + 1 := ⟨n - 1, by omega⟩
    rw [scanDigits]
    by_cases hx : isDigit x = true
    · obtain ⟨q, hgives, hat⟩ := ih h.tail (by simpa using hn) (nextDigit v x)
      rw [List.takeWhile_cons_of_pos hx, List.dropWhile_cons_of_pos hx, List.foldl_cons]
      refine ⟨q, Gives.bind (h.readFmt hfmt) ?_, hat⟩
      rw [List.headD_cons, if_pos hx]
      exact hgives
    · rw [List.takeWhile_cons_of_neg hx, List.dropWhile_cons_of_neg hx, List.foldl_nil]
      refine ⟨p, Gives.bind (h.readFmt hfmt) ?_, h⟩
      rw [List.headD_cons, if_neg hx]
      exact gives_pure _

theorem scanNumber_gives (h : At c start stop p t) :
    ∃ q, Gives P (scanNumber c p k) (q, (number c.args k t).next, (number c.args k t).value) ∧
      At c start stop q (number c.args k t).rest := by
  rw [scanNumber, number]
  by_cases hstar : t.head? = some (ch '*')
  · obtain ⟨t, rfl⟩ : ∃ t', t = ch '*' :: t' := List.head?_eq_some_iff.mp hstar
    rw [if_pos hstar]
    exact ⟨p + 1, Gives.bind (h.readFmt hfmt) (gives_pure _), h.tail⟩
  · obtain ⟨q, hgives, hat⟩ := scanDigits_gives hfmt h h.length_lt 0
    rw [if_neg hstar]
    refine ⟨q, Gives.bind (h.readFmt hfmt) ?_, hat⟩
    rw [if_neg fun hx => hstar ((headD_eq_iff (by decide)).mp hx)]
    exact Gives.bind hgives (gives_pure _)

theorem scanPrecision_gives (h : At c start stop p t) :
    ∃ q, Gives P (scanPrecision c p k)
        (q, (precisionOf c.args k t).next, (precisionOf c.args k t).value) ∧
      At c start stop q (precisionOf c.args k t).rest := by
  rw [scanPrecision, precisionOf]
  by_cases hdot : t.head? = some (ch '.')
  · obtain ⟨t, rfl⟩ : ∃ t', t = ch '.' :: t' := List.head?_eq_some_iff.mp hdot
    obtain ⟨q, hgives, hat⟩ := scanNumber_gives hfmt h.tail (k := k)
    rw [if_pos hdot]
    exact ⟨q, Gives.bind (h.readFmt hfmt) hgives, hat⟩
  · rw [if_neg hdot]
    refine ⟨p, Gives.bind (h.readFmt hfmt) ?_, h⟩
    rw [if_neg fun hx => hdot ((headD_eq_iff (by decide)).mp hx)]
    exact gives_pure _

/-- What stands between `%` and the conversion. -/
theorem scanSpec_gives (h : At c start stop p t) :
    ∃ q, Gives P (scanSpec c p k) (q, (specOf c.args k t).next, (specOf c.args k t).value) ∧
      At c start stop q (specOf c.args k t).rest := by
  obtain ⟨q, hflags, hat⟩ := scanFlags_gives hfmt h h.length_lt false false
  obtain ⟨r, hwidth, hat'⟩ := scanNumber_gives hfmt hat (k := k)
  obtain ⟨s, hprecision, hrest⟩ := scanPrecision_gives hfmt hat'
    (k := (number c.args k (t.dropWhile isFlag)).next)
  exact ⟨s, Gives.bind hflags (Gives.bind hwidth (Gives.bind hprecision (gives_pure _))), hrest⟩

end

/-! ## Texts of numbers in `tmp` -/

section

variable {P : Access → Prop} (htmp : ∀ size i, i < size → P (.tmp size i)) (tmp : Mem)

include htmp

theorem shiftUp_gives (lo : Nat) {need : Nat} (n : Nat) (hneed : 0 < need) (hfits : lo + n + need ≤ 32) :
    ∃ tmp', Gives P (shiftUp lo need n tmp) tmp' ∧ ∀ x, tmp' x =
      if lo + need ≤ x ∧ x < lo + n + need then tmp (x - need) else tmp x := by
  induction n generalizing tmp with
  | zero => exact ⟨tmp, gives_pure _, fun x => by rw [if_neg (by omega)]⟩
  | succ n ih =>
    obtain ⟨tmp', hgives, hsame⟩ := ih (write8 tmp (lo + n + need) (tmp (lo + n)).toNat)
      (by omega)
    refine ⟨tmp', Gives.bind (gives_emit (htmp 32 _ (by omega)) _) hgives, fun x => ?_⟩
    rw [hsame x]
    by_cases hx : x = lo + n + need
    · subst hx
      rw [if_neg (by omega), if_pos (by omega), write8_char, Nat.add_sub_cancel]
    · by_cases hin : lo + need ≤ x ∧ x < lo + n + need
      · rw [if_pos hin, if_pos (by omega), write8_ne _ _ (by omega)]
      · rw [if_neg hin, if_neg (by omega), write8_ne _ _ hx]

theorem fillZeros_gives {j n : Nat} (hfits : j + n ≤ 32) :
    ∃ tmp', Gives P (fillZeros j n tmp) tmp' ∧ ∀ x, tmp' x =
      if j ≤ x ∧ x < j + n then ch '0' else tmp x := by
  induction n generalizing j tmp with
  | zero => exact ⟨tmp, gives_pure _, fun x => by rw [if_neg (by omega)]⟩
  | succ n ih =>
    obtain ⟨tmp', hgives, hsame⟩ := ih (write8 tmp j (ch '0').toNat) (j := j + 1) (by omega)
    refine ⟨tmp', Gives.bind (gives_emit (htmp 32 _ (by omega)) _) hgives, fun x => ?_⟩
    rw [hsame x]
    by_cases hx : x = j
    · subst hx
      rw [if_neg (by omega), if_pos (by omega), write8_char]
    · by_cases hin : j + 1 ≤ x ∧ x < j + 1 + n
      · rw [if_pos hin, if_pos (by omega)]
      · rw [if_neg hin, if_neg (by omega), write8_ne _ _ hx]

/-- The zeros come between the sign and the digits. -/
theorem zeroExtend_gives {tmp : Mem} {pre ds : List Char8} {precision : Int} (h : Holds tmp 0 (pre ++ ds))
    (hfits : precision + pre.length ≤ 31) :
    ∃ tmp', Gives P (zeroExtend tmp pre.length (pre.length + ds.length) precision)
        (tmp', (pre ++ precise precision ds).length) ∧
      Holds tmp' 0 (pre ++ precise precision ds) := by
  have hsub : (pre.length + ds.length : Int) - pre.length = ds.length := by omega
  rw [zeroExtend, hsub, precise]
  by_cases hmore : precision > ds.length
  · obtain ⟨need, hneed⟩ : ∃ need : Nat, precision - ds.length = need :=
      ⟨(precision - ds.length).toNat, by omega⟩
    have hrounds : ((pre.length : Int) + ds.length + 1 - pre.length).toNat = ds.length + 1 := by
      omega
    have htotal : int32 (pre.length + ds.length + need) =
        (pre ++ (List.replicate need (ch '0') ++ ds)).length := by
      rw [int32_of_mem (by omega) (by omega)]
      simp only [List.length_append, List.length_replicate]
      omega
    rw [if_pos hmore, hneed, Int.toNat_natCast, hrounds]
    dsimp only
    rw [htotal]
    obtain ⟨up, hup, hmoved⟩ := shiftUp_gives htmp tmp pre.length (ds.length + 1)
      (show 0 < need by omega) (by omega)
    obtain ⟨zeros, hzeros, hfilled⟩ := fillZeros_gives htmp up (j := pre.length) (n := need)
      (by omega)
    obtain ⟨hpre, hds⟩ := holds_append.mp h
    refine ⟨zeros, Gives.bind hup (Gives.bind hzeros (gives_pure _)), ?_⟩
    rw [holds_append, holds_append]
    refine ⟨holds_congr hpre fun x _ hx => ?_, holds_iff.mpr fun i hi => ?_,
      holds_iff.mpr fun i hi => ?_⟩
    · rw [hfilled, if_neg (by omega), hmoved, if_neg (by omega)]
    · rw [List.length_replicate] at hi
      rw [hfilled, if_pos (by omega), List.getElem_replicate]
    · have hback : 0 + pre.length + need + i - need = 0 + pre.length + i := by omega
      rw [List.length_replicate, hfilled, if_neg (by omega), hmoved, if_pos (by omega), hback,
        holds_iff.mp hds i hi]
  · have hnone : (precision - ds.length).toNat = 0 := by omega
    rw [if_neg hmore, hnone, List.replicate_zero, List.nil_append, List.length_append]
    exact ⟨tmp, gives_pure _, h⟩

/-- The numeral of a 32-bit number in a `tmp` that has room for 32 bytes behind `a`. -/
theorem utoaTmp_gives (c : Call) {size base value : Nat} (a : Nat) (hbase : Base base)
    (hvalue : value < 2 ^ 32) (hroom : a + (numeral base value).length < size) :
    ∃ tmp', Gives P (utoaTmp c size tmp value a base) tmp' ∧ CStr tmp' a (numeral base value) ∧
      ∀ x < a, tmp' x = tmp x := by
  obtain ⟨tmp', hgives, hstr, hsame⟩ := utoa_spec (P := fun w => P (tmpWrite size w)) hbase hvalue
    c.stack tmp a (fun i hi => htmp 32 i hi) (fun b _ hb => htmp size b (by omega))
  exact ⟨tmp', hgives.relabel, hstr, hsame⟩

end

theorem numeral_int_le {v : Int} (hlo : -2 ^ 31 ≤ v) (hhi : v < 2 ^ 31) :
    (sign v).length ≤ 1 ∧ (numeral 10 v.natAbs).length ≤ 10 := by
  refine ⟨?_, numeral_length_le (by decide) (by decide) (by omega)⟩
  rw [sign]
  split <;> simp

theorem intTmp_length_le (c : Call) (k : Nat) :
    (sign (c.args k).toInt).length + (numeral 10 (c.args k).toInt.natAbs).length ≤ 31 := by
  have h := numeral_int_le (BitVec.le_toInt (c.args k)) (BitVec.toInt_lt (x := c.args k))
  omega

/-- The sign and the numeral of an `int`. -/
theorem intTmp_gives {P : Access → Prop} (htmp : ∀ size i, i < size → P (.tmp size i)) (c : Call)
    (k : Nat) : ∃ tmp, Gives P (intTmp c k) (tmp, (sign (c.args k).toInt).length) ∧
      CStr tmp 0 (sign (c.args k).toInt ++ numeral 10 (c.args k).toInt.natAbs) := by
  have hlo := BitVec.le_toInt (c.args k)
  have hhi := BitVec.toInt_lt (x := c.args k)
  rw [intTmp]
  dsimp only
  generalize (c.args k).toInt = v at hlo hhi ⊢
  have hlen := (numeral_int_le hlo hhi).2
  have habs : v.natAbs < 2 ^ 32 := by omega
  by_cases hneg : v < 0
  · have hsign : sign v = [ch '-'] := if_pos hneg
    obtain ⟨tmp, htext, hstr, -⟩ := utoaTmp_gives htmp c.stack c 1 base_ten habs
      (show 1 + _ < 32 by omega)
    have hset : Gives P (setTmp 32 tmp 0 (ch '-')) (write8 tmp 0 (ch '-').toNat) :=
      gives_emit (htmp 32 0 (by decide)) _
    simp only [hneg, ↓reduceIte, uint32_neg hlo hneg, hsign]
    refine ⟨_, Gives.bind htext (Gives.bind hset (gives_pure _)), write8_char _ _ _, by decide, ?_⟩
    exact cstr_congr hstr fun x hx => write8_ne _ _ (by omega)
  · have hsign : sign v = [] := if_neg hneg
    have huint : uint32 v = v.natAbs := by
      have h := uint32_of_mem (z := v) (by omega) (by omega)
      omega
    obtain ⟨tmp, htext, hstr, -⟩ := utoaTmp_gives htmp c.stack c 0 base_ten habs
      (show 0 + _ < 32 by omega)
    simp only [hneg, ↓reduceIte, huint, hsign]
    exact ⟨tmp, Gives.bind htext (Gives.bind (gives_pure _) (gives_pure _)), hstr⟩

theorem strLen_gives {P : Access → Prop} {m : Mem} {a : Nat} {s : List Char8} (h : CStr m a s)
    (hlen : s.length < ROUNDS) : Gives P (strLen m a) (int32 s.length) := by
  rw [strLen, strlen_cstr h hlen]
  exact gives_pure _

/-! ## The directives -/

section

variable {c : Call} {σ : Type} {put : σ → Char8 → Act σ} {step : σ → Char8 → σ}
  {P : Access → Prop} {spec : Spec} {k : Nat} {out : σ}
  (hput : ∀ out x, Gives P (put out x) (step out x))

include hput

theorem putTimes_gives (x : Char8) (n : Nat) :
    Gives P (putTimes put x n out) ((List.replicate n x).foldl step out) := by
  induction n generalizing out with
  | zero => exact gives_pure _
  | succ n ih => exact Gives.bind (hput out x) ih

theorem putChars_gives {tmp : Mem} {a : Nat} {s : List Char8} (h : Holds tmp a s) :
    Gives P (putChars put tmp a s.length out) (s.foldl step out) := by
  induction s generalizing a out with
  | nil => exact gives_pure _
  | cons x s ih =>
    rw [List.length_cons, putChars, h.1]
    exact Gives.bind (hput out x) (ih h.2)

theorem padAndPut_gives {tmp : Mem} {a : Nat} {len : Int} {s : List Char8} (h : Holds tmp a s)
    (hlen : len.toNat = s.length) :
    Gives P (padAndPut put spec tmp a len out) ((padded spec len s).foldl step out) := by
  rw [padAndPut, padded, hlen]
  cases spec.leftAlign with
  | false =>
    rw [if_neg Bool.false_ne_true, if_neg Bool.false_ne_true, List.foldl_append]
    exact Gives.bind (putTimes_gives hput _ _) (Gives.bind (putChars_gives hput h) (gives_pure _))
  | true =>
    rw [if_pos rfl, if_pos rfl, List.foldl_append]
    exact Gives.bind (gives_pure _) (Gives.bind (putChars_gives hput h) (putTimes_gives hput _ _))

/-- The beginning of a text. -/
theorem padAndPut_take {tmp : Mem} {a : Nat} {len : Int} {s : List Char8} (h : Holds tmp a s)
    (hle : len.toNat ≤ s.length) : Gives P (padAndPut put spec tmp a len out)
      ((padded spec len (s.take len.toNat)).foldl step out) := by
  refine padAndPut_gives hput (holds_take h len.toNat) ?_
  rw [List.length_take, Nat.min_eq_left hle]

theorem fitted_gives (spec : Spec) (out : σ) {tmp : Mem} {s : List Char8} (h : Holds tmp 0 s) :
    Gives P (padAndPut put spec tmp 0 s.length out) ((fitted spec s).foldl step out) :=
  padAndPut_gives hput h (Int.toNat_natCast _)

/-- A string or the beginning of one. -/
theorem putString_gives : Gives P (putString c put spec k out)
    ((directiveText c spec k .string).foldl step out) := by
  have hstr : CStr (if c.args k = 0 then memOf 0 nullText else c.mem) (c.args k).toNat
      (stringArg c k) := by
    rw [stringArg]
    by_cases h0 : c.args k = 0
    · rw [if_pos h0, if_pos h0, h0]
      exact memOf_cstr 0 (by decide)
    · rw [if_neg h0, if_neg h0]
      exact c.cstr_stringAt _
  have hlen : (stringArg c k).length < ROUNDS := by
    rw [stringArg]
    split
    · decide
    · exact c.stringAt_length_lt _
  have hle : (stringLen spec (stringArg c k)).toNat ≤ (stringArg c k).length := by
    have hround := int32_le (z := (stringArg c k).length) (by omega)
    rw [stringLen]
    split <;> omega
  exact Gives.bind (strLen_gives hstr hlen)
    (padAndPut_take hput (holds_append.mp hstr.holds).1 hle)

theorem putNumber_gives (htmp : ∀ size i, i < size → P (.tmp size i)) (spec : Spec) (out : σ) {tmp : Mem}
    (pre : List Char8) {ds : List Char8} (h : CStr tmp 0 (pre ++ ds)) (hlen : pre.length + ds.length ≤ 31)
    (hfits : spec.precision + pre.length ≤ 31) :
    Gives P (putNumber put spec tmp pre.length out)
      ((fitted spec (pre ++ precise spec.precision ds)).foldl step out) := by
  have hround : int32 (pre ++ ds).length = pre.length + ds.length := by
    rw [List.length_append, Int.natCast_add, int32_of_mem (by omega) (by omega)]
  have hstrLen := strLen_gives (P := P) h (by rw [List.length_append, ROUNDS]; omega)
  rw [hround] at hstrLen
  obtain ⟨tmp', hextend, hholds⟩ := zeroExtend_gives htmp (holds_append.mp h.holds).1 hfits
  exact Gives.bind hstrLen (Gives.bind hextend (fitted_gives hput spec out hholds))

theorem putInt_gives (htmp : ∀ size i, i < size → P (.tmp size i)) (hfits : Fits c spec k .int) :
    Gives P (putInt c put spec k out) ((directiveText c spec k .int).foldl step out) := by
  obtain ⟨tmp, htext, hstr⟩ := intTmp_gives htmp c k
  have hlen := intTmp_length_le c k
  exact Gives.bind htext (putNumber_gives hput htmp spec out _ hstr (by omega) hfits)

theorem putUnsigned_gives (htmp : ∀ size i, i < size → P (.tmp size i)) {base : Nat}
    (hbase : Base base) (hlen : (numeral base (c.args k).toNat).length ≤ 31)
    (hfits : spec.precision ≤ 31) :
    Gives P (putUnsigned c put base spec k out)
      ((fitted spec (precise spec.precision (numeral base (c.args k).toNat))).foldl step out) := by
  obtain ⟨tmp, htext, hstr, -⟩ := utoaTmp_gives htmp c.stack c 0 hbase (c.args k).isLt
    (show 0 + _ < 32 by omega)
  have hnumber : CStr tmp 0 ([] ++ numeral base (c.args k).toNat) := hstr
  have hrest := putNumber_gives hput htmp spec out [] hnumber (by rw [List.length_nil]; omega)
    (by rw [List.length_nil]; omega)
  exact Gives.bind htext hrest

theorem putPointer_gives (htmp : ∀ size i, i < size → P (.tmp size i)) :
    Gives P (putPointer c put spec k out) ((directiveText c spec k .pointer).foldl step out) := by
  have hlt := (c.args k).isLt
  have hlen : (numeral 16 (c.args k).toNat).length ≤ 8 :=
    numeral_length_le (by decide) (by decide) hlt
  obtain ⟨tmp, htext, hstr, hsame⟩ := utoaTmp_gives htmp
    (write8 (write8 c.stack 0 (ch '0').toNat) 1 (ch 'x').toNat) c 2 base_sixteen hlt
    (show 2 + _ < 34 by omega)
  have hpointer : CStr tmp 0 ([ch '0', ch 'x'] ++ numeral 16 (c.args k).toNat) := by
    refine ⟨?_, by decide, ?_, by decide, hstr⟩
    · rw [hsame 0 (by decide), write8_ne _ _ (by decide), write8_char]
    · rw [hsame 1 (by decide), write8_char]
  have hround : int32 ([ch '0', ch 'x'] ++ numeral 16 (c.args k).toNat).length =
      ([ch '0', ch 'x'] ++ numeral 16 (c.args k).toNat).length := by
    rw [int32_of_mem (by omega) (by simp; omega)]
  have hstrLen := strLen_gives (P := P) hpointer (by simp [ROUNDS]; omega)
  rw [hround] at hstrLen
  have hzero : Gives P (setTmp 34 c.stack 0 (ch '0')) (write8 c.stack 0 (ch '0').toNat) :=
    gives_emit (htmp 34 0 (by decide)) _
  have hx : Gives P (setTmp 34 (write8 c.stack 0 (ch '0').toNat) 1 (ch 'x'))
      (write8 (write8 c.stack 0 (ch '0').toNat) 1 (ch 'x').toNat) :=
    gives_emit (htmp 34 1 (by decide)) _
  exact Gives.bind hzero (Gives.bind hx (Gives.bind htext (Gives.bind hstrLen
    (fitted_gives hput spec out (holds_append.mp hpointer.holds).1))))

theorem putChar_gives (htmp : ∀ size i, i < size → P (.tmp size i)) :
    Gives P (putChar c put spec k out) ((directiveText c spec k .char).foldl step out) := by
  have hset : Gives P (setTmp 1 c.stack 0 ((c.args k).setWidth 8))
      (write8 c.stack 0 ((c.args k).setWidth 8).toNat) := gives_emit (htmp 1 0 (by decide)) _
  have hrest := fitted_gives (s := [(c.args k).setWidth 8]) hput spec out
    ⟨write8_char c.stack 0 _, trivial⟩
  rw [List.length_singleton] at hrest
  exact Gives.bind hset hrest

theorem putDouble_gives : Gives P (putDouble c put spec k out)
    ((directiveText c spec k .double).foldl step out) := by
  have hround := int32_le (z := (doubleText c spec k).length) (by omega)
  have hholds := holds_memOf 0 (doubleText c spec k)
  rw [putDouble, directiveText]
  change Gives P (padAndPut put spec (memOf 0 (doubleText c spec k)) 0
    (int32 (doubleText c spec k).length) out) _
  generalize doubleText c spec k = s at hround hholds ⊢
  exact padAndPut_take hput hholds (by omega)

/-- **A directive** whose `tmp` is big enough puts its text. -/
theorem directive_gives (htmp : ∀ size i, i < size → P (.tmp size i)) {conv : Conversion}
    (hfits : Fits c spec k conv) : Gives P (directive c put spec k out conv)
      ((directiveText c spec k conv).foldl step out) := by
  have hten : (numeral 10 (c.args k).toNat).length ≤ 10 :=
    numeral_length_le (by decide) (by decide) (Nat.lt_trans (c.args k).isLt (by decide))
  have hsixteen : (numeral 16 (c.args k).toNat).length ≤ 8 :=
    numeral_length_le (by decide) (by decide) (c.args k).isLt
  cases conv with
  | char => exact putChar_gives hput htmp
  | string => exact putString_gives hput
  | int => exact putInt_gives hput htmp hfits
  | unsigned => exact putUnsigned_gives hput htmp base_ten (by omega) hfits
  | hex => exact putUnsigned_gives hput htmp base_sixteen (by omega) hfits
  | pointer => exact putPointer_gives hput htmp
  | double => exact putDouble_gives hput
  | percent => exact hput out _
  | unknown => exact gives_pure _

end

/-! ## The main loop -/

theorem length_dropWhile_le (f : Char8 → Bool) (t : List Char8) :
    (t.dropWhile f).length ≤ t.length :=
  (List.dropWhile_suffix f).length_le

theorem number_rest_le (args : Nat → BitVec 32) (k : Nat) (t : List Char8) :
    (number args k t).rest.length ≤ t.length := by
  rw [number]
  split
  · rw [List.length_tail]
    exact Nat.sub_le _ _
  · exact length_dropWhile_le _ _

theorem specOf_rest_le (args : Nat → BitVec 32) (k : Nat) (t : List Char8) :
    (specOf args k t).rest.length ≤ t.length := by
  have hprecision : ∀ k t, (precisionOf args k t).rest.length ≤ t.length := by
    intro k t
    rw [precisionOf]
    split
    · have h := number_rest_le args k t.tail
      rw [List.length_tail] at h
      omega
    · exact Nat.le_refl _
  have hflags := length_dropWhile_le isFlag t
  have hwidth := number_rest_le args k (t.dropWhile isFlag)
  exact Nat.le_trans (hprecision _ _) (Nat.le_trans hwidth hflags)

section

variable {c : Call} {start stop : Nat} {σ : Type} {put : σ → Char8 → Act σ}
  {step : σ → Char8 → σ} {P : Access → Prop}

/-- **The main loop** on a format whose pieces all fit: the texts of the pieces are put,
one after the other. -/
theorem loop_gives (hfmt : ∀ q, start ≤ q → q ≤ stop → P (.fmt q))
    (htmp : ∀ size i, i < size → P (.tmp size i))
    (hput : ∀ out x, Gives P (put out x) (step out x)) (n : Nat) :
    ∀ {m p k : Nat} {t : List Char8} (out : σ), At c start stop p t → t.length < n →
      t.length ≤ m → (∀ piece ∈ pieces c.args m k t, piece.Fits c) →
      Gives P (vsnprintfLoop c put n p k out)
        (((pieces c.args m k t).flatMap (pieceText c)).foldl step out) := by
  induction n with
  | zero => intro m p k t out _ hn; omega
  | succ n ih =>
    intro m p k t out h hn hm hfits
    cases t with
    | nil =>
      rw [pieces_nil]
      exact Gives.bind (h.readFmt hfmt) (gives_pure _)
    | cons x t =>
      have hx0 : x ≠ 0 := h.str.2.1
      obtain ⟨m, rfl⟩ : ∃ j, m = j + 1 := ⟨m - 1, by rw [List.length_cons] at hm; omega⟩
      rw [List.length_cons] at hn hm
      refine Gives.bind (h.readFmt hfmt) ?_
      rw [List.headD_cons, if_neg hx0]
      by_cases hx : x = ch '%'
      · subst hx
        obtain ⟨q, hscan, hat⟩ := scanSpec_gives hfmt h.tail (k := k)
        have hle := specOf_rest_le c.args k t
        rw [if_neg (not_not.mpr rfl)]
        cases hrest : (specOf c.args k t).rest with
        | nil =>
          rw [pieces_incomplete hrest] at hfits
          exact (hfits _ List.mem_cons_self).elim
        | cons y u =>
          rw [hrest] at hat hle
          rw [List.length_cons] at hle
          rw [pieces_directive hrest, List.forall_mem_cons] at hfits
          rw [pieces_directive hrest, List.flatMap_cons, List.foldl_append]
          refine Gives.bind hscan (Gives.bind (hat.readFmt hfmt)
            (Gives.bind (directive_gives hput htmp hfits.1) ?_))
          exact ih _ hat.tail (by omega) (by omega) hfits.2
      · rw [pieces_text hx, List.forall_mem_cons] at hfits
        have htail := ih (step out x) h.tail (by omega) (by omega) hfits.2
        rw [if_pos hx, pieces_text hx, List.flatMap_cons, List.foldl_append]
        exact Gives.bind (hput out x) htail

end

end FrogKernel.Vsnprintf
