import Mathlib.Algebra.Group.Nat.Defs
import Mathlib.Logic.Function.Basic
import Mathlib.Tactic.Common

/-!
# The input ring of the terminal (`devices/tty/tty.c`)

The keyboard interrupt pushes characters into a ring of 256 bytes; a reader
that found a newline in the ring copies one line, or as much of it as it asked
for, out of it.
-/

namespace FrogKernel.Tty

def TTY_RING_SIZE : Nat := 256

/-- The fields of `tty_t` that hold input. -/
structure TtyT where
  ring : Nat → BitVec 8
  ringRead : Nat
  ringWrite : Nat
  ringCount : Nat
  lineLen : Nat

def newline : BitVec 8 := 10#8
def backspace : BitVec 8 := 8#8

/-- `tty_input_push` up to its `console_putchar`; the flag says whether the
function goes on to it. -/
def ttyInputPush (t : TtyT) (c : BitVec 8) : TtyT × Bool :=
  if c = backspace then
    if t.lineLen = 0 then (t, false)
    else if t.ringCount > 0 then
      ({ t with
        ringWrite := (t.ringWrite + TTY_RING_SIZE - 1) % TTY_RING_SIZE
        ringCount := t.ringCount - 1
        lineLen := t.lineLen - 1 }, true)
    else (t, true)
  else if t.ringCount ≥ TTY_RING_SIZE then (t, false)
  else
    ({ t with
      ring := Function.update t.ring t.ringWrite c
      ringWrite := (t.ringWrite + 1) % TTY_RING_SIZE
      ringCount := t.ringCount + 1
      lineLen := if c = newline then 0 else t.lineLen + 1 }, true)

/-- The scan of `tty_read` for a newline, from the `i`-th queued byte on. -/
def hasNewlineFrom (t : TtyT) : Nat → Nat → Bool
  | _, 0 => false
  | i, n + 1 =>
    if t.ring ((t.ringRead + i) % TTY_RING_SIZE) = newline then true
    else hasNewlineFrom t (i + 1) n

def hasNewline (t : TtyT) : Bool := hasNewlineFrom t 0 t.ringCount

/-- The copy loop at the end of `tty_read`, with room for `k` more bytes. -/
def ttyCopy (t : TtyT) : Nat → List (BitVec 8) × TtyT
  | 0 => ([], t)
  | k + 1 =>
    if t.ringCount = 0 then ([], t)
    else
      let c := t.ring t.ringRead
      let t := { t with
        ringRead := (t.ringRead + 1) % TTY_RING_SIZE
        ringCount := t.ringCount - 1 }
      if c = newline then ([c], t)
      else
        let r := ttyCopy t k
        (c :: r.1, r.2)

theorem ttyCopy_length (t : TtyT) (k : Nat) : (ttyCopy t k).1.length ≤ k := by
  induction k generalizing t with
  | zero => simp [ttyCopy]
  | succ k ih =>
    unfold ttyCopy
    split
    · exact Nat.zero_le _
    · dsimp only
      split
      · exact Nat.succ_le_succ (Nat.zero_le k)
      · exact Nat.succ_le_succ (ih _)

end FrogKernel.Tty
