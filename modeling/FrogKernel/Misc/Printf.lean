import Mathlib.Data.List.Forall2
import FrogKernel.Lib.CStrings
import FrogKernel.Memory.Kheap

/-!
# Formatted output (`misc/printf.c`)

The part of `vsnprintf` that formats made of ordinary characters and plain `%s`
directives use: no flags, width 0, no precision.  Output past the end of the
buffer is dropped.
-/

namespace FrogKernel.Printf

open FrogKernel.Bytes FrogKernel.CStrings
open FrogKernel.Kheap (add32 sub32)

/-- An ordinary character of the format, or `%s` with its argument. -/
inductive Directive where
  | text (c : Char8)
  | str (m : Mem) (s : Nat)

/-- `PUT(c)`: `if (i < size - 1) buf[i++] = (c)`, on the buffer and `i` -/
def put (size : Nat) (out : Mem × Nat) (c : Char8) : Mem × Nat :=
  if out.2 < sub32 size 1 then (write8 out.1 out.2 c.toNat, out.2 + 1) else out

-- unification must not evaluate the comparison with a 32-bit number
attribute [irreducible] put

/-- `for (int _j = 0; _j < _len; _j++) PUT((tmp)[_j])` -/
def putChars (size : Nat) (m : Mem) (out : Mem × Nat) (s : Nat) : Nat → Mem × Nat
  | 0 => out
  | n + 1 => putChars size m (put size out (m s)) (s + 1) n

def vsnprintfLoop (size : Nat) : Mem × Nat → List Directive → Option (Mem × Nat)
  | out, [] => some out
  | out, .text c :: fmt => vsnprintfLoop size (put size out c) fmt
  | out, .str m s :: fmt =>
    (strlen m s ROUNDS).bind fun len => vsnprintfLoop size (putChars size m out s len) fmt

/-- `ksnprintf` with the buffer at 0; the length is returned too. -/
def ksnprintf (buf : Mem) (size : Nat) (fmt : List Directive) : Option (Mem × Nat) :=
  (vsnprintfLoop size (buf, 0) fmt).map fun (buf, i) => (write8 buf i 0, i)

/-- What a directive prints. -/
def Prints : Directive → List Char8 → Prop
  | .text c, t => t = [c]
  | .str m s, t => CStr m s t ∧ t.length < ROUNDS

/-- The first `size - 1` characters of `t` are in the buffer. -/
structure Printed (size : Nat) (out : Mem × Nat) (t : List Char8) : Prop where
  holds : Holds out.1 0 (t.take (size - 1))
  length : out.2 = (t.take (size - 1)).length

variable {size : Nat} {out : Mem × Nat} {t : List Char8}

theorem printed_put (h : Printed size out t) (hsize : 0 < size) (hlt : size < 2 ^ 32)
    (c : Char8) : Printed size (put size out c) (t ++ [c]) := by
  have hlen := h.length
  rw [List.length_take] at hlen
  have hlast : sub32 size 1 = size - 1 := by
    rw [sub32]
    omega
  rw [put, hlast]
  split
  case isTrue hroom =>
    have htake : t.take (size - 1) = t := List.take_of_length_le (by omega)
    have htake' : (t ++ [c]).take (size - 1) = t ++ [c] :=
      List.take_of_length_le (by rw [List.length_append, List.length_singleton]; omega)
    have hwrite := holds_write8 h.holds c
    rw [htake, Nat.zero_add] at hwrite
    constructor
    · rw [htake', hlen, Nat.min_eq_right (by omega)]
      exact hwrite
    · rw [htake', List.length_append, List.length_singleton]
      dsimp only
      omega
  case isFalse hfull =>
    have htake : (t ++ [c]).take (size - 1) = t.take (size - 1) :=
      List.take_append_of_le_length (by omega)
    exact ⟨htake ▸ h.holds, htake ▸ h.length⟩

theorem printed_putChars {m : Mem} {u : List Char8} {s : Nat} (h : Printed size out t)
    (hsize : 0 < size) (hlt : size < 2 ^ 32) (hu : Holds m s u) :
    Printed size (putChars size m out s u.length) (t ++ u) := by
  induction u generalizing out t s with
  | nil => simpa [putChars] using h
  | cons c u ih =>
    have hnext := ih (printed_put h hsize hlt c) hu.2
    rw [List.append_assoc, List.singleton_append] at hnext
    rw [List.length_cons, putChars, hu.1]
    exact hnext

theorem printed_loop {fmt : List Directive} {us : List (List Char8)} (h : Printed size out t)
    (hsize : 0 < size) (hlt : size < 2 ^ 32) (hfmt : List.Forall₂ Prints fmt us) :
    ∃ out', vsnprintfLoop size out fmt = some out' ∧ Printed size out' (t ++ us.flatten) := by
  induction hfmt generalizing out t with
  | nil => exact ⟨out, rfl, by simpa using h⟩
  | @cons d u fmt us hd _ ih =>
    rw [List.flatten_cons, ← List.append_assoc]
    cases d with
    | text c =>
      obtain rfl : u = [c] := hd
      exact ih (printed_put h hsize hlt c)
    | str m s =>
      rw [vsnprintfLoop, strlen_cstr hd.1 hd.2, Option.bind_some]
      exact ih (printed_putChars h hsize hlt (holds_append.mp hd.1.holds).1)

/-- **`ksnprintf`** leaves the text, cut to the buffer, as a string. -/
theorem ksnprintf_cstr (buf : Mem) (size : Nat) {fmt : List Directive} {us : List (List Char8)}
    (hsize : 0 < size) (hlt : size < 2 ^ 32) (hfmt : List.Forall₂ Prints fmt us)
    (hne : ∀ c ∈ us.flatten, c ≠ 0) :
    ∃ buf' n, ksnprintf buf size fmt = some (buf', n) ∧
      CStr buf' 0 (us.flatten.take (size - 1)) := by
  have hstart : Printed size (buf, 0) [] := ⟨by simp [Holds], by simp⟩
  obtain ⟨out, hloop, hprinted⟩ := printed_loop hstart hsize hlt hfmt
  rw [List.nil_append] at hprinted
  have hstr := cstr_write8 hprinted.holds fun c hc => hne c (List.mem_of_mem_take hc)
  rw [Nat.zero_add, ← hprinted.length] at hstr
  exact ⟨_, _, by rw [ksnprintf, hloop]; rfl, hstr⟩

end FrogKernel.Printf
