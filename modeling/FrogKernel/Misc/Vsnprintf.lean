import FrogKernel.Lib.Int32
import FrogKernel.Misc.Printf
import FrogKernel.Misc.Utoa

/-!
# The whole of `vsnprintf` (`misc/printf.c`, `libc/stdio.c`)

The kernel and the C library have the same `vsnprintf`.  `PUT` is a parameter here:
with `putBuf` it is the one of the source, and with `putText` nothing is cut off.  The
trace has the reads of the format and the writes to the buffer and to the `tmp` arrays.
`ftoa` is a parameter, since it computes with floating point numbers.
-/

namespace FrogKernel.Vsnprintf

open FrogKernel.Bytes FrogKernel.CStrings FrogKernel.Int32 FrogKernel.Numerals FrogKernel.Traces
open FrogKernel.Utoa (utoa)
open FrogKernel.Kheap (sub32)

/-- A read of `*fmt`, a write to `buf`, or a write to a `tmp` with `size` bytes. -/
inductive Access where
  | fmt (a : Nat)
  | buf (i : Nat)
  | tmp (size i : Nat)

abbrev Act := Traced Unit Access

/-- The memory with the format and the strings, the words of the `va_list`, what the `tmp`
arrays hold before they are written, and what `ftoa` makes of the two words of a `double`.
The addresses wrap around, and some byte is a NUL. -/
structure Call where
  mem : Mem
  args : Nat → BitVec 32
  stack : Mem
  ftoa : BitVec 32 → BitVec 32 → Int → List Char8
  mem_wraps : ∀ a, mem (a + 2 ^ 32) = mem a
  mem_nul : ∃ a, mem a = 0

/-- The flags, the width and the precision of a directive. -/
structure Spec where
  leftAlign : Bool
  zeroPad : Bool
  width : Int
  precision : Int
deriving DecidableEq

/-- The cases of the `switch`. -/
inductive Conversion where
  | char
  | string
  | int
  | unsigned
  | hex
  | pointer
  | double
  | percent
  | unknown
deriving DecidableEq

def conversion (c : Char8) : Conversion :=
  if c = ch 'c' then .char
  else if c = ch 's' then .string
  else if c = ch 'd' then .int
  else if c = ch 'u' then .unsigned
  else if c = ch 'x' then .hex
  else if c = ch 'p' then .pointer
  else if c = ch 'f' then .double
  else if c = ch '%' then .percent
  else .unknown

/-- The words that a directive takes from the arguments. -/
def argWords : Conversion → Nat
  | .double => 2
  | .percent | .unknown => 0
  | _ => 1

def isFlag (c : Char8) : Bool := c = ch '-' || c = ch '0'

def isDigit (c : Char8) : Bool := (ch '0').toNat ≤ c.toNat && c.toNat ≤ (ch '9').toNat

section

variable (c : Call)

/-! ## The parser -/

/-- `*fmt` -/
def readFmt (p : Nat) : Act Char8 := emit [.fmt p] (.ok (c.mem p))

/-- `while (*fmt == '-' || *fmt == '0')`; the result is `fmt`, `left_align` and `zero_pad`. -/
def scanFlags : Nat → Nat → Bool → Bool → Act (Nat × Bool × Bool)
  | 0, _, _, _ => silent (.error ())
  | n + 1, p, leftAlign, zeroPad => do
    let x ← readFmt c p
    if isFlag x then scanFlags n (p + 1) (leftAlign || x = ch '-') (zeroPad || x = ch '0')
    else pure (p, leftAlign, zeroPad)

/-- `v * 10 + (*fmt++ - '0')` -/
def nextDigit (v : Int) (x : Char8) : Int := int32 (v * 10 + (x.toNat - (ch '0').toNat))

/-- `while (*fmt >= '0' && *fmt <= '9')`; the result is `fmt` and the number. -/
def scanDigits : Nat → Nat → Int → Act (Nat × Int)
  | 0, _, _ => silent (.error ())
  | n + 1, p, v => do
    let x ← readFmt c p
    if isDigit x then scanDigits n (p + 1) (nextDigit v x) else pure (p, v)

/-- `*` with an argument, or digits; the result is `fmt`, the next argument and the number. -/
def scanNumber (p k : Nat) : Act (Nat × Nat × Int) := do
  let x ← readFmt c p
  if x = ch '*' then pure (p + 1, k + 1, (c.args k).toInt)
  else do
    let digits ← scanDigits c ROUNDS p 0
    pure (digits.1, k, digits.2)

/-- `if (*fmt == '.')` -/
def scanPrecision (p k : Nat) : Act (Nat × Nat × Int) := do
  let x ← readFmt c p
  if x = ch '.' then scanNumber c (p + 1) k else pure (p, k, -1)

/-- What stands between `%` and the conversion; the result is `fmt`, the next argument and
the directive's values. -/
def scanSpec (p k : Nat) : Act (Nat × Nat × Spec) := do
  let flags ← scanFlags c ROUNDS p false false
  let width ← scanNumber c flags.1 k
  let precision ← scanPrecision c width.1 width.2.1
  pure (precision.1, precision.2.1,
    ⟨flags.2.1, flags.2.2 && !flags.2.1, width.2.2, precision.2.2⟩)

/-! ## Texts of numbers in `tmp` -/

/-- `tmp[i] = x` -/
def setTmp (size : Nat) (tmp : Mem) (i : Nat) (x : Char8) : Act Mem :=
  emit [.tmp size i] (.ok (write8 tmp i x.toNat))

/-- The writes of `utoa`, whose own `tmp` has 32 bytes, to a `tmp` with `size`. -/
def tmpWrite (size : Nat) : Utoa.Write → Access
  | .tmp i => .tmp 32 i
  | .buf a => .tmp size a

/-- `utoa(value, tmp + a, base)` -/
def utoaTmp (size : Nat) (tmp : Mem) (value a base : Nat) : Act Mem :=
  relabel (tmpWrite size) (utoa c.stack tmp value a base)

/-- `case 'd'` up to the sign; the result is `tmp` and `neg`. -/
def intTmp (k : Nat) : Act (Mem × Nat) := do
  let val := (c.args k).toInt
  let neg := if val < 0 then 1 else 0
  let val := if val < 0 then int32 (-val) else val
  let tmp ← utoaTmp c 32 c.stack (uint32 val) neg 10
  let tmp ← if neg = 1 then setTmp 32 tmp 0 (ch '-') else pure tmp
  pure (tmp, neg)

/-- `int len = 0; while (s[len]) len++` -/
def strLen (m : Mem) (a : Nat) : Act Int :=
  match strlen m a ROUNDS with
  | some len => pure (int32 len)
  | none => silent (.error ())

/-- `for (int j = len; j >= lo; j--) tmp[j + need] = tmp[j]`, with `n` rounds to go -/
def shiftUp (lo need : Nat) : Nat → Mem → Act Mem
  | 0, tmp => pure tmp
  | n + 1, tmp => do
    let tmp ← setTmp 32 tmp (lo + n + need) (tmp (lo + n))
    shiftUp lo need n tmp

/-- `for (int j = lo; j < lo + need; j++) tmp[j] = '0'`, with `n` rounds to go from `j` -/
def fillZeros : Nat → Nat → Mem → Act Mem
  | _, 0, tmp => pure tmp
  | j, n + 1, tmp => do
    let tmp ← setTmp 32 tmp j (ch '0')
    fillZeros (j + 1) n tmp

/-- Zeros in front of the digits at `lo`, up to the precision; the result is `tmp` and `len`. -/
def zeroExtend (tmp : Mem) (lo : Nat) (len precision : Int) : Act (Mem × Int) :=
  if precision > len - lo then do
    let need := (precision - (len - lo)).toNat
    let tmp ← shiftUp lo need (len + 1 - lo).toNat tmp
    let tmp ← fillZeros lo need tmp
    pure (tmp, int32 (len + need))
  else pure (tmp, len)

/-! ## The directives -/

variable {σ : Type} (put : σ → Char8 → Act σ)

/-- `while (_pad-- > 0) PUT(x)` -/
def putTimes (x : Char8) : Nat → σ → Act σ
  | 0, out => pure out
  | n + 1, out => do
    let out ← put out x
    putTimes x n out

/-- `for (int _j = 0; _j < _len; _j++) PUT((tmp)[_j])`, with `n` rounds to go from `a` -/
def putChars (tmp : Mem) : Nat → Nat → σ → Act σ
  | _, 0, out => pure out
  | a, n + 1, out => do
    let out ← put out (tmp a)
    putChars tmp (a + 1) n out

/-- `PAD_AND_PUT` -/
def padAndPut (spec : Spec) (tmp : Mem) (a : Nat) (len : Int) (out : σ) : Act σ := do
  let pad := (int32 (spec.width - len)).toNat
  let out ← if spec.leftAlign then pure out
    else putTimes put (if spec.zeroPad then ch '0' else ch ' ') pad out
  let out ← putChars put tmp a len.toNat out
  if spec.leftAlign then putTimes put (ch ' ') pad out else pure out

/-- `case 'c'` -/
def putChar (spec : Spec) (k : Nat) (out : σ) : Act σ := do
  let tmp ← setTmp 1 c.stack 0 ((c.args k).setWidth 8)
  padAndPut put spec tmp 0 1 out

/-- `"(null)"` -/
def nullText : List Char8 := [ch '(', ch 'n', ch 'u', ch 'l', ch 'l', ch ')']

/-- `case 's'` -/
def putString (spec : Spec) (k : Nat) (out : σ) : Act σ := do
  let s := if c.args k = 0 then memOf 0 nullText else c.mem
  let len ← strLen s (c.args k).toNat
  let len := if spec.precision ≥ 0 ∧ spec.precision < len then spec.precision else len
  padAndPut put spec s (c.args k).toNat len out

/-- What follows `utoa` for a `tmp` that has its digits from `lo` on. -/
def putNumber (spec : Spec) (tmp : Mem) (lo : Nat) (out : σ) : Act σ := do
  let len ← strLen tmp 0
  let extended ← zeroExtend tmp lo len spec.precision
  padAndPut put spec extended.1 0 extended.2 out

/-- `case 'd'` -/
def putInt (spec : Spec) (k : Nat) (out : σ) : Act σ := do
  let text ← intTmp c k
  putNumber put spec text.1 text.2 out

/-- `case 'u'` and `case 'x'` -/
def putUnsigned (base : Nat) (spec : Spec) (k : Nat) (out : σ) : Act σ := do
  let tmp ← utoaTmp c 32 c.stack (c.args k).toNat 0 base
  putNumber put spec tmp 0 out

/-- `case 'p'` -/
def putPointer (spec : Spec) (k : Nat) (out : σ) : Act σ := do
  let tmp ← setTmp 34 c.stack 0 (ch '0')
  let tmp ← setTmp 34 tmp 1 (ch 'x')
  let tmp ← utoaTmp c 34 tmp (c.args k).toNat 2 16
  let len ← strLen tmp 0
  padAndPut put spec tmp 0 len out

/-- `case 'f'` -/
def putDouble (spec : Spec) (k : Nat) (out : σ) : Act σ :=
  let text := c.ftoa (c.args k) (c.args (k + 1)) (if spec.precision ≥ 0 then spec.precision else 6)
  padAndPut put spec (memOf 0 text) 0 (int32 text.length) out

/-- `switch (*fmt++)` -/
def directive (spec : Spec) (k : Nat) (out : σ) : Conversion → Act σ
  | .char => putChar c put spec k out
  | .string => putString c put spec k out
  | .int => putInt c put spec k out
  | .unsigned => putUnsigned c put 10 spec k out
  | .hex => putUnsigned c put 16 spec k out
  | .pointer => putPointer c put spec k out
  | .double => putDouble c put spec k out
  | .percent => put out (ch '%')
  | .unknown => pure out

/-- `while (*fmt)`, with at most `n` rounds -/
def vsnprintfLoop : Nat → Nat → Nat → σ → Act σ
  | 0, _, _, _ => silent (.error ())
  | n + 1, p, k, out => do
    let x ← readFmt c p
    if x = 0 then pure out
    else if x ≠ ch '%' then do
      let out ← put out x
      vsnprintfLoop n (p + 1) k out
    else do
      let scanned ← scanSpec c (p + 1) k
      let x ← readFmt c scanned.1
      let out ← directive c put scanned.2.2 scanned.2.1 out (conversion x)
      vsnprintfLoop n (scanned.1 + 1) (scanned.2.1 + argWords (conversion x)) out

end

/-! ## The two ways to put a character -/

/-- `if (i < size - 1) buf[i++] = (x)` -/
def putBuf (size : Nat) (out : Mem × Nat) (x : Char8) : Act (Mem × Nat) :=
  emit (if out.2 < sub32 size 1 then [.buf out.2] else []) (.ok (Printf.put size out x))

/-- A `PUT` without a limit. -/
def putText (out : List Char8) (x : Char8) : Act (List Char8) := pure (out ++ [x])

/-- `vsnprintf` with the buffer at 0; the result is the buffer and the return value. -/
def vsnprintf (c : Call) (buf : Mem) (size fmt : Nat) : Act (Mem × Int) := do
  let out ← vsnprintfLoop c (putBuf size) ROUNDS fmt 0 (buf, 0)
  let buf ← emit [.buf out.2] (.ok (write8 out.1 out.2 0))
  pure (buf, int32 out.2)

/-- What `vsnprintf` prints when nothing limits it. -/
def unbounded (c : Call) (fmt : Nat) : Act (List Char8) := vsnprintfLoop c putText ROUNDS fmt 0 []

/-! ## Strings in the memory -/

namespace Call

variable (c : Call)

theorem mem_mod (a : Nat) : c.mem (a % 2 ^ 32) = c.mem a := by
  have hwraps : ∀ b k, c.mem (b + k * 2 ^ 32) = c.mem b := by
    intro b k
    induction k with
    | zero => rw [Nat.zero_mul, Nat.add_zero]
    | succ k ih => rw [Nat.succ_mul, ← Nat.add_assoc, c.mem_wraps, ih]
  rw [← hwraps (a % 2 ^ 32) (a / 2 ^ 32), Nat.mul_comm, Nat.mod_add_div]

/-- Every walk meets a NUL before it is around. -/
theorem exists_nul (a : Nat) : ∃ r < ROUNDS, c.mem (a + r) = 0 := by
  obtain ⟨b, hb⟩ := c.mem_nul
  refine ⟨(b + (2 ^ 32 - a % 2 ^ 32)) % 2 ^ 32, Nat.mod_lt _ (by decide), ?_⟩
  have hmod : (a + (b + (2 ^ 32 - a % 2 ^ 32)) % 2 ^ 32) % 2 ^ 32 = b % 2 ^ 32 := by omega
  rw [← mem_mod, hmod, mem_mod, hb]

/-- The string at an address. -/
def stringAt (a : Nat) : List Char8 := fieldChars c.mem a ROUNDS

theorem cstr_stringAt (a : Nat) : CStr c.mem a (c.stringAt a) := by
  obtain ⟨r, hr, h0⟩ := c.exists_nul a
  exact (fieldChars_terminated h0 hr).1

theorem stringAt_length_lt (a : Nat) : (c.stringAt a).length < ROUNDS := by
  obtain ⟨r, hr, h0⟩ := c.exists_nul a
  exact Nat.lt_of_le_of_lt (fieldChars_terminated h0 hr).2 hr

theorem stringAt_eq {a : Nat} {s : List Char8} (h : CStr c.mem a s) : c.stringAt a = s :=
  (c.cstr_stringAt a).unique h

theorem cstr_length_lt {a : Nat} {s : List Char8} (h : CStr c.mem a s) : s.length < ROUNDS :=
  c.stringAt_eq h ▸ c.stringAt_length_lt a

end Call

/-! ## Calls with a given format -/

/-- A call whose memory has the characters of a format at `0x1000`. -/
def callOf (format : List Char8) (args : Nat → BitVec 32) (h : 0x1000 + format.length < 2 ^ 32) :
    Call where
  mem a := memOf 0x1000 format (a % 2 ^ 32)
  args := args
  stack _ := 0
  ftoa _ _ _ := []
  mem_wraps a := by rw [Nat.add_mod_right]
  mem_nul := ⟨0x1000 + format.length, by
    rw [Nat.mod_eq_of_lt h, memOf, Nat.add_sub_cancel_left, List.getD_eq_getElem?_getD,
      List.getElem?_eq_none (Nat.le_refl _), Option.getD_none]⟩

theorem callOf_format {format : List Char8} (args : Nat → BitVec 32)
    (h : 0x1000 + format.length < 2 ^ 32) (hne : ∀ x ∈ format, x ≠ 0) :
    CStr (callOf format args h).mem 0x1000 format := by
  refine cstr_iff.mpr ⟨holds_congr (memOf_cstr 0x1000 hne).holds fun a _ ha => ?_, hne⟩
  rw [List.length_append, List.length_singleton] at ha
  have hsmall : a % 2 ^ 32 = a := Nat.mod_eq_of_lt (by omega)
  exact congrArg (memOf 0x1000 format) hsmall

end FrogKernel.Vsnprintf
