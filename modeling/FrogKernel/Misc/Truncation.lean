import FrogKernel.Misc.Formats

/-!
# Cutting the output off (`misc/printf.c`, `libc/stdio.c`)

An unbounded run gives the texts of the pieces; a run with a buffer stores the first of
these characters, as many as the buffer has room for next to the NUL.

Main result: `truncated`.
-/

namespace FrogKernel.Vsnprintf

open FrogKernel.Bytes FrogKernel.CStrings FrogKernel.Int32 FrogKernel.Numerals FrogKernel.Traces
open FrogKernel.Printf (Printed printed_put)
open FrogKernel.Kheap (sub32)

/-- The access stays in the format from `start` to the NUL at `stop`, in the buffer, or in
its `tmp`. -/
def Inside (start stop size : Nat) : Access → Prop
  | .fmt a => start ≤ a ∧ a ≤ stop
  | .buf i => i < size
  | .tmp room i => i < room

section

variable {size : Nat}

theorem printed_foldl (hsize : 0 < size) (hlt : size < 2 ^ 32) (text : List Char8) :
    ∀ {out : Mem × Nat} {t : List Char8}, Printed size out t →
      Printed size (text.foldl (Printf.put size) out) (t ++ text) := by
  induction text with
  | nil => intro out t h; rwa [List.append_nil]
  | cons x text ih =>
    intro out t h
    rw [List.append_cons]
    exact ih (printed_put h hsize hlt x)

/-- The bytes from `i` on are as they were. -/
theorem foldl_put_frame (size : Nat) (text : List Char8) : ∀ (out : Mem × Nat),
    out.2 ≤ (text.foldl (Printf.put size) out).2 ∧
      ∀ a, (text.foldl (Printf.put size) out).2 ≤ a →
        (text.foldl (Printf.put size) out).1 a = out.1 a := by
  induction text with
  | nil => exact fun out => ⟨Nat.le_refl _, fun _ _ => rfl⟩
  | cons x text ih =>
    intro out
    obtain ⟨hle, hsame⟩ := ih (Printf.put size out x)
    have hput : out.2 ≤ (Printf.put size out x).2 ∧
        ∀ a, (Printf.put size out x).2 ≤ a → (Printf.put size out x).1 a = out.1 a := by
      rw [Printf.put]
      split
      · exact ⟨Nat.le_succ _, fun a ha => write8_ne _ _ (Nat.ne_of_gt ha)⟩
      · exact ⟨Nat.le_refl _, fun _ _ => rfl⟩
    rw [List.foldl_cons]
    refine ⟨Nat.le_trans hput.1 hle, fun a ha => ?_⟩
    rw [hsame a ha, hput.2 a (Nat.le_trans hle ha)]

theorem putBuf_gives (hsize : 0 < size) (hlt : size < 2 ^ 32) (start stop : Nat)
    (out : Mem × Nat) (x : Char8) :
    Gives (Inside start stop size) (putBuf size out x) (Printf.put size out x) := by
  refine ⟨rfl, fun w hw => ?_⟩
  rw [putBuf, trace_emit] at hw
  split at hw
  case isTrue hroom =>
    rw [List.mem_singleton.mp hw]
    rw [sub32] at hroom
    exact Nat.lt_of_lt_of_le hroom (by omega)
  case isFalse => cases hw

end

section

variable {c : Call} {fmt : Nat} {format : List Char8}

/-- Everything that a format prints. -/
def formatText (c : Call) (format : List Char8) : List Char8 :=
  (formatPieces c.args format).flatMap (pieceText c)

/-- What holds of the format itself at the beginning. -/
theorem at_start (h : CStr c.mem fmt format) : At c fmt (fmt + format.length) fmt format :=
  ⟨h, Nat.le_refl _, rfl⟩

theorem foldl_snoc (text : List Char8) : ∀ out : List Char8,
    text.foldl (fun out x => out ++ [x]) out = out ++ text := by
  induction text with
  | nil => exact fun out => (List.append_nil out).symm
  | cons x text ih =>
    intro out
    rw [List.foldl_cons, ih, List.append_assoc, List.singleton_append]

/-- An unbounded run gives the whole text. -/
theorem unbounded_result (h : CStr c.mem fmt format)
    (hfits : ∀ piece ∈ formatPieces c.args format, piece.Fits c) :
    (unbounded c fmt).result = .ok (formatText c format) := by
  have hrun := loop_gives (P := fun _ => True) (fun _ _ _ => trivial) (fun _ _ _ => trivial)
    (fun out x => gives_pure (out ++ [x])) ROUNDS [] (at_start h) (c.cstr_length_lt h)
    (Nat.le_refl _) hfits
  rw [foldl_snoc] at hrun
  exact hrun.result

/-- What a run with a buffer of `size` bytes leaves: the first characters of `text`, a NUL
and nothing else; it returns their number as an `int`, and writes no byte outside. -/
structure Truncated (c : Call) (buf : Mem) (size fmt : Nat) (text : List Char8) (buf' : Mem) :
    Prop where
  result : (vsnprintf c buf size fmt).result = .ok (buf', int32 (min (size - 1) text.length : Nat))
  holds : Holds buf' 0 (text.take (size - 1) ++ [0])
  frame : ∀ a, min (size - 1) text.length < a → buf' a = buf a
  inside : ∀ i, .buf i ∈ (vsnprintf c buf size fmt).trace → i < size

/-- A run on a format whose pieces all fit. -/
theorem vsnprintf_gives (h : CStr c.mem fmt format)
    (hfits : ∀ piece ∈ formatPieces c.args format, piece.Fits c) (buf : Mem) {size : Nat}
    (hsize : 0 < size) (hlt : size < 2 ^ 32) :
    (∃ buf', Truncated c buf size fmt (formatText c format) buf') ∧
      ∀ w ∈ (vsnprintf c buf size fmt).trace, Inside fmt (fmt + format.length) size w := by
  have hrun := loop_gives (P := Inside fmt (fmt + format.length) size) (fun _ hlo hhi => ⟨hlo, hhi⟩)
    (fun _ _ hi => hi) (putBuf_gives hsize hlt fmt (fmt + format.length)) ROUNDS (buf, 0)
    (at_start h) (c.cstr_length_lt h) (Nat.le_refl _) hfits
  have hstart : Printed size (buf, 0) [] := ⟨by simp [Holds], by simp⟩
  have hprinted := printed_foldl hsize hlt (formatText c format) hstart
  obtain ⟨-, hsame⟩ := foldl_put_frame size (formatText c format) (buf, 0)
  rw [List.nil_append] at hprinted
  change Gives _ _ ((formatText c format).foldl (Printf.put size) (buf, 0)) at hrun
  generalize (formatText c format).foldl (Printf.put size) (buf, 0) = out at hrun hprinted hsame
  generalize formatText c format = text at hprinted
  have hlen : out.2 = min (size - 1) text.length := by
    rw [hprinted.length, List.length_take]
  have hnul : Inside fmt (fmt + format.length) size (.buf out.2) := show out.2 < size by omega
  have hall : Gives (Inside fmt (fmt + format.length) size) (vsnprintf c buf size fmt)
      (write8 out.1 out.2 0, int32 out.2) :=
    Gives.bind hrun (Gives.bind (gives_emit hnul _) (gives_pure _))
  have hholds := holds_write8 hprinted.holds 0
  rw [Nat.zero_add, ← hprinted.length] at hholds
  refine ⟨⟨write8 out.1 out.2 0, ?_, hholds, ?_, fun i hi => hall.trace _ hi⟩, hall.trace⟩
  · rw [hall.result, hlen]
  · intro a ha
    rw [write8_ne _ _ (by omega), hsame a (by omega)]

/-- Ordinary characters and complete directives other than `%f`, with no more than 20 for
the precision. -/
def Piece.Plain : Piece → Prop
  | .text _ => True
  | .directive spec _ conv => conv ≠ .double ∧ conv ≠ .unknown ∧ spec.precision ≤ 20
  | .incomplete => False

instance : DecidablePred Piece.Plain
  | .text _ => isTrue trivial
  | .directive spec _ conv =>
    inferInstanceAs (Decidable (conv ≠ .double ∧ conv ≠ .unknown ∧ spec.precision ≤ 20))
  | .incomplete => isFalse id

theorem Piece.Plain.fits {piece : Piece} (h : piece.Plain) : piece.Fits c := by
  cases piece with
  | text x => trivial
  | incomplete => exact h.elim
  | directive spec k conv =>
    have hprecision : spec.precision ≤ 20 := h.2.2
    cases conv with
    | int =>
      have hsign := (numeral_int_le (BitVec.le_toInt (c.args k)) BitVec.toInt_lt).1
      change spec.precision + _ ≤ 31
      omega
    | unsigned => exact Int.le_trans hprecision (by decide)
    | hex => exact Int.le_trans hprecision (by decide)
    | _ => trivial

end

end FrogKernel.Vsnprintf
