import FrogKernel.Devices.Tty
import FrogKernel.Vfs.Vfs

/-!
# What the drivers do with a user buffer

The `read` and `write` operations of `/dev/null`, `/dev/zero`, `/dev/tty0`,
`/dev/fb0` and of the files of the initrd.  Their state `DevWorld` keeps a log
of the addresses of the user's buffer they read or wrote, in order and not
reduced modulo 2^32.
-/

namespace FrogKernel.Drivers

open FrogKernel.Vfs FrogKernel.Tty

/-- What a vnode stands for, with the private data its driver uses. -/
inductive Device where
  | null
  | zero
  | tty
  /-- `/dev/fb0` with the `pitch` and `width` of its `fb_info_t`. -/
  | fb (pitch width : Nat)
  /-- A file of the initrd with the size `initrd_lookup` finds, if it finds the file. -/
  | initrdFile (size : Option Nat)
  /-- Directories have neither `read` nor `write`. -/
  | directory

/-- The devices behind the vnodes, the terminal, and the log. -/
structure DevWorld where
  device : Ptr → Device
  tty : TtyT
  touched : List Nat

/-- The addresses `buf`, ..., `buf + n - 1`. -/
def userBytes (buf n : Nat) : List Nat := (List.range n).map (buf + ·)

/-- The driver went over the first `n` bytes of `buf`. -/
def touch (w : DevWorld) (buf n : Nat) : DevWorld :=
  { w with touched := w.touched ++ userBytes buf n }

/-- `(ssize_t)n` for a 32-bit `n`. -/
def ssize (n : Nat) : Int := if n < 2 ^ 31 then n else (n : Int) - 2 ^ 32

def nullRead (w : DevWorld) (_buf _len _offset : Nat) : Int × DevWorld := (0, w)

def nullWrite (w : DevWorld) (_buf len _offset : Nat) : Int × DevWorld := (ssize len, w)

/-- `memset(buf, 0, len)` -/
def zeroRead (w : DevWorld) (buf len _offset : Nat) : Int × DevWorld :=
  (ssize len, touch w buf len)

def zeroWrite (w : DevWorld) (_buf len _offset : Nat) : Int × DevWorld := (ssize len, w)

/-- `tty_read` from the moment it has seen a newline. -/
def ttyRead (w : DevWorld) (buf len _offset : Nat) : Int × DevWorld :=
  let r := ttyCopy w.tty len
  (ssize r.1.length, touch { w with tty := r.2 } buf r.1.length)

/-- `console_putchar(str[i])` for every `i < len` -/
def ttyWrite (w : DevWorld) (buf len _offset : Nat) : Int × DevWorld :=
  (ssize len, touch w buf len)

/-- The common part of `fb_read` and `fb_write`. -/
def fbTransfer (pitch width : Nat) (w : DevWorld) (buf len offset : Nat) : Int × DevWorld :=
  let fbSize := pitch * width % 2 ^ 32
  if offset ≥ fbSize then (0, w)
  else
    let available := fbSize - offset
    let toCopy := if len < available then len else available
    (ssize toCopy, touch w buf toCopy)

def initrdFileRead (size : Option Nat) (w : DevWorld) (buf len offset : Nat) : Int × DevWorld :=
  match size with
  | none => (-1, w)
  | some size =>
    if offset ≥ size then (0, w)
    else
      let available := size - offset
      let toRead := if len < available then len else available
      (ssize toRead, touch w buf toRead)

/-- `node->ops->read` -/
def deviceRead : Device → Option (DevWorld → Nat → Nat → Nat → Int × DevWorld)
  | .null => some nullRead
  | .zero => some zeroRead
  | .tty => some ttyRead
  | .fb pitch width => some (fbTransfer pitch width)
  | .initrdFile size => some (initrdFileRead size)
  | .directory => none

/-- `node->ops->write` -/
def deviceWrite : Device → Option (DevWorld → Nat → Nat → Nat → Int × DevWorld)
  | .null => some nullWrite
  | .zero => some zeroWrite
  | .tty => some ttyWrite
  | .fb pitch width => some (fbTransfer pitch width)
  | .initrdFile _ => none
  | .directory => none

/-- The vnodes with these operations; `resolve` is the path lookup. -/
def deviceDrivers (resolve : DevWorld → List (BitVec 8) → Option Ptr × DevWorld)
    (flags : DevWorld → Ptr → Nat) : Drivers DevWorld where
  vfsResolve := resolve
  flags := flags
  ops w node := some {
    opRead := (deviceRead (w.device node)).map fun op w _ buf len offset => op w buf len offset
    opWrite := (deviceWrite (w.device node)).map fun op w _ buf len offset => op w buf len offset }

/-! ## No driver leaves the buffer -/

theorem mem_userBytes {buf n a : Nat} : a ∈ userBytes buf n ↔ buf ≤ a ∧ a < buf + n := by
  simp only [userBytes, List.mem_map, List.mem_range]
  constructor
  · rintro ⟨k, hk, rfl⟩
    exact ⟨Nat.le_add_right buf k, Nat.add_lt_add_left hk buf⟩
  · rintro ⟨h1, h2⟩
    exact ⟨a - buf, by omega, by omega⟩

/-- An operation on a user buffer touches bytes of that buffer only. -/
def StaysInside (op : DevWorld → Nat → Nat → Nat → Int × DevWorld) : Prop :=
  ∀ w buf len offset, ∃ n, n ≤ len ∧
    (op w buf len offset).2.touched = w.touched ++ userBytes buf n

theorem staysInside_idle {op : DevWorld → Nat → Nat → Nat → Int × DevWorld}
    (h : ∀ w buf len offset, (op w buf len offset).2 = w) : StaysInside op :=
  fun w buf len offset => ⟨0, Nat.zero_le len, by simp [h, userBytes]⟩

theorem fbTransfer_inside (pitch width : Nat) : StaysInside (fbTransfer pitch width) := by
  intro w buf len offset
  unfold fbTransfer
  dsimp only
  split
  · exact ⟨0, Nat.zero_le len, by simp [userBytes]⟩
  · exact ⟨_, by split <;> omega, rfl⟩

theorem deviceRead_inside {dev : Device} {op : DevWorld → Nat → Nat → Nat → Int × DevWorld}
    (h : deviceRead dev = some op) : StaysInside op := by
  cases dev <;> simp only [deviceRead, Option.some.injEq, reduceCtorEq] at h <;> subst h
  case null => exact staysInside_idle fun _ _ _ _ => rfl
  case zero => exact fun w buf len _ => ⟨len, Nat.le_refl len, rfl⟩
  case tty => exact fun w buf len _ => ⟨_, ttyCopy_length w.tty len, rfl⟩
  case fb pitch width => exact fbTransfer_inside pitch width
  case initrdFile size =>
    intro w buf len offset
    unfold initrdFileRead
    split
    · exact ⟨0, Nat.zero_le len, by simp [userBytes]⟩
    · split
      · exact ⟨0, Nat.zero_le len, by simp [userBytes]⟩
      · exact ⟨_, by split <;> omega, rfl⟩

theorem deviceWrite_inside {dev : Device} {op : DevWorld → Nat → Nat → Nat → Int × DevWorld}
    (h : deviceWrite dev = some op) : StaysInside op := by
  cases dev <;> simp only [deviceWrite, Option.some.injEq, reduceCtorEq] at h <;> subst h
  case null => exact staysInside_idle fun _ _ _ _ => rfl
  case zero => exact staysInside_idle fun _ _ _ _ => rfl
  case tty => exact fun w buf len _ => ⟨len, Nat.le_refl len, rfl⟩
  case fb pitch width => exact fbTransfer_inside pitch width

end FrogKernel.Drivers
