import FrogKernel.Userspace.UserBuffer
import FrogKernel.Vfs.FileCalls

/-!
# The `ioctl` of the terminal and the framebuffer (`devices/tty/tty.c`, `devices/fb/fb.c`)

`sys_ioctl` asks `val_ptr` for one byte of the argument and lets `NULL` through; the
drivers copy a structure of 24 bytes to it.  `ioctl_userAddr_iff` compares the two: the
bytes written are user addresses unless the structure is copied to `NULL` or over the
end of user space.
-/

namespace FrogKernel.Ioctl

open FrogKernel.Bytes FrogKernel.CStrings
open FrogKernel.Kheap (add32 add32_lt)
open FrogKernel.Vfs (Ptr Drivers VnodeOps VfsState getFile vfsIoctl vfsQuery)
open FrogKernel.Syscall (KERNEL_VIRT_BASE valPtr valPtr_true Registers toInt32 toUint32 UserAddr)
open FrogKernel.FileCalls (vfsQuery_open vfsQuery_cases)

def TTY_GET_INFO : Int := 0x01
def FB_GET_INFO : Int := 0x01

/-- A `uint32_t` as it lies in memory. -/
def wordBytes (v : Nat) : List Char8 := (List.range 4).map fun i => BitVec.ofNat 8 (v / 256 ^ i)

/-- `tty_info_t` -/
structure TtyInfoT where
  cols : Nat
  rows : Nat
  bgColor : Nat
  fgColor : Nat
  cursorX : Nat
  cursorY : Nat

def TtyInfoT.bytes (info : TtyInfoT) : List Char8 :=
  [info.cols, info.rows, info.bgColor, info.fgColor, info.cursorX, info.cursorY].flatMap wordBytes

/-- `fb_info_t` -/
structure FbInfoT where
  physAddr : Nat
  virtAddr : Nat
  width : Nat
  height : Nat
  pitch : Nat
  bpp : Nat

def FbInfoT.bytes (info : FbInfoT) : List Char8 :=
  [info.physAddr, info.virtAddr, info.width, info.height, info.pitch, info.bpp].flatMap wordBytes

/-- What a vnode stands for; `/dev/null`, `/dev/zero` and the files of the initrd have
no `ioctl`. -/
inductive InfoDevice where
  | tty
  | fb (info : FbInfoT)
  | other

/-- The devices behind the vnodes, the terminal and the cursor of the console, the
memory, and the addresses that the drivers wrote to. -/
structure InfoWorld where
  device : Ptr → InfoDevice
  ttyInfo : TtyInfoT
  cursorX : Nat
  cursorY : Nat
  mem : Mem
  written : List Nat

/-- `memcpy` of a structure with these bytes. -/
def memcpy (w : InfoWorld) (dst : Nat) : List Char8 → InfoWorld
  | [] => w
  | c :: s =>
    memcpy { w with mem := Function.update w.mem dst c, written := w.written ++ [dst] }
      (add32 dst 1) s

def ttyIoctl (w : InfoWorld) (request : Int) (arg : Nat) : Int × InfoWorld :=
  if request = TTY_GET_INFO then
    let info := { w.ttyInfo with cursorX := w.cursorX, cursorY := w.cursorY }
    (0, memcpy { w with ttyInfo := info } arg info.bytes)
  else (-1, w)

def fbIoctl (info : FbInfoT) (w : InfoWorld) (request : Int) (arg : Nat) : Int × InfoWorld :=
  if request = FB_GET_INFO then (0, memcpy w arg info.bytes)
  else (-1, w)

/-- `node->ops->ioctl` -/
def deviceIoctl : InfoDevice → Option (InfoWorld → Int → Nat → Int × InfoWorld)
  | .tty => some ttyIoctl
  | .fb info => some (fbIoctl info)
  | .other => none

/-- The vnodes with this operation; `resolve` is the path lookup. -/
def ioctlDrivers (resolve : InfoWorld → List Char8 → Option Ptr × InfoWorld)
    (flags : InfoWorld → Ptr → Nat) : Drivers InfoWorld where
  vfsResolve := resolve
  flags := flags
  ops w node := some {
    opIoctl := (deviceIoctl (w.device node)).map fun op w _ request arg => op w request arg }

def sysIoctl {W : Type} (d : Drivers W) (s : VfsState W) (regs : Registers) :
    Registers × VfsState W :=
  if regs.edx ≠ 0 ∧ !valPtr regs.edx 1 then ({ regs with eax := toUint32 (-1) }, s)
  else
    let r := vfsIoctl d s (toInt32 regs.ebx) (toInt32 regs.ecx) regs.edx
    ({ regs with eax := toUint32 r.1 }, r.2)

/-! ## What a driver writes -/

/-- The addresses of `n` bytes from `dst` on. -/
def addresses (dst : Nat) : Nat → List Nat
  | 0 => []
  | n + 1 => dst :: addresses (add32 dst 1) n

theorem mem_addresses {dst n a : Nat} (h : dst < 2 ^ 32) :
    a ∈ addresses dst n ↔ ∃ i < n, a = (dst + i) % 2 ^ 32 := by
  induction n generalizing dst with
  | zero => simp [addresses]
  | succ n ih =>
    rw [addresses, List.mem_cons, ih (add32_lt dst 1)]
    have hstep : ∀ i, (add32 dst 1 + i) % 2 ^ 32 = (dst + (i + 1)) % 2 ^ 32 := fun i => by
      rw [add32]
      omega
    constructor
    · rintro (rfl | ⟨i, hi, rfl⟩)
      · exact ⟨0, Nat.succ_pos n, (Nat.mod_eq_of_lt h).symm⟩
      · exact ⟨i + 1, Nat.succ_lt_succ hi, hstep i⟩
    · rintro ⟨i, hi, rfl⟩
      cases i with
      | zero => exact Or.inl (Nat.mod_eq_of_lt h)
      | succ i => exact Or.inr ⟨i, Nat.lt_of_succ_lt_succ hi, (hstep i).symm⟩

theorem memcpy_written (w : InfoWorld) (dst : Nat) (s : List Char8) :
    (memcpy w dst s).written = w.written ++ addresses dst s.length := by
  induction s generalizing w dst with
  | nil => simp [memcpy, addresses]
  | cons c s ih =>
    rw [memcpy, ih, List.length_cons, addresses, List.append_assoc, List.singleton_append]

theorem wordBytes_length (v : Nat) : (wordBytes v).length = 4 := by simp [wordBytes]

theorem TtyInfoT.bytes_length (info : TtyInfoT) : info.bytes.length = 24 := by
  simp [TtyInfoT.bytes, wordBytes_length]

theorem FbInfoT.bytes_length (info : FbInfoT) : info.bytes.length = 24 := by
  simp [FbInfoT.bytes, wordBytes_length]

/-- Both drivers copy their 24 bytes for the one request they know. -/
theorem deviceIoctl_written {dev : InfoDevice} {op : InfoWorld → Int → Nat → Int × InfoWorld}
    (h : deviceIoctl dev = some op) (w : InfoWorld) (request : Int) (arg : Nat) :
    (op w request arg).2.written =
      w.written ++ if request = 1 then addresses arg 24 else [] := by
  cases dev with
  | tty =>
    obtain rfl := Option.some.inj h
    unfold ttyIoctl TTY_GET_INFO
    split
    · dsimp only
      rw [memcpy_written, TtyInfoT.bytes_length]
    · exact (List.append_nil _).symm
  | fb info =>
    obtain rfl := Option.some.inj h
    unfold fbIoctl FB_GET_INFO
    split
    · dsimp only
      rw [memcpy_written, FbInfoT.bytes_length]
    · exact (List.append_nil _).symm
  | other => cases h

/-! ## What `sys_ioctl` makes it write -/

section

variable (resolve : InfoWorld → List Char8 → Option Ptr × InfoWorld)
  (flags : InfoWorld → Ptr → Nat)

/-- The descriptor is open, and what it refers to has an `ioctl`. -/
def HasIoctl (s : VfsState InfoWorld) (fd : Int) : Prop :=
  getFile s fd ≠ 0 ∧ (deviceIoctl (s.world.device (s.files (getFile s fd)).vnode)).isSome

instance (s : VfsState InfoWorld) (fd : Int) : Decidable (HasIoctl s fd) :=
  inferInstanceAs (Decidable (_ ∧ _))

/-- The bytes written during the system call, in order. -/
def ioctlWrites (s : VfsState InfoWorld) (regs : Registers) : List Nat :=
  (sysIoctl (ioctlDrivers resolve flags) { s with world := { s.world with written := [] } }
    regs).2.world.written

theorem vfsIoctl_written (s : VfsState InfoWorld) (fd request : Int) (arg : Nat) :
    (vfsIoctl (ioctlDrivers resolve flags) s fd request arg).2.world.written =
      s.world.written ++ if HasIoctl s fd ∧ request = 1 then addresses arg 24 else [] := by
  unfold vfsIoctl
  by_cases hio : HasIoctl s fd
  · obtain ⟨hfile, hsome⟩ := hio
    obtain ⟨op, hop⟩ := Option.isSome_iff_exists.mp hsome
    have hpick : (((ioctlDrivers resolve flags).ops s.world (s.files (getFile s fd)).vnode).bind
        (·.opIoctl)).map (fun op (w : InfoWorld) node => op w node request arg) =
        some fun w _ => op w request arg := by
      simp only [ioctlDrivers, Option.bind_some, hop, Option.map_some]
    rw [vfsQuery_open hfile hpick, deviceIoctl_written hop]
    simp only [show HasIoctl s fd from ⟨hfile, hsome⟩, true_and]
  · rw [if_neg fun h => hio h.1, List.append_nil]
    rcases vfsQuery_cases (fun w node => (((ioctlDrivers resolve flags).ops w node).bind
        (·.opIoctl)).map (fun op w node => op w node request arg)) s fd with h | ⟨hfile, op, hop⟩
    · rw [h]
    · refine absurd ⟨hfile, ?_⟩ hio
      simp only [ioctlDrivers, Option.bind_some, Option.map_map, Option.map_eq_some_iff] at hop
      obtain ⟨op', hop', -⟩ := hop
      rw [hop']
      rfl

theorem ioctlWrites_eq (s : VfsState InfoWorld) (regs : Registers) :
    ioctlWrites resolve flags s regs =
      if (regs.edx = 0 ∨ valPtr regs.edx 1 = true) ∧ HasIoctl s (toInt32 regs.ebx) ∧
        toInt32 regs.ecx = 1 then addresses regs.edx 24 else [] := by
  unfold ioctlWrites sysIoctl
  by_cases hv : regs.edx = 0 ∨ valPtr regs.edx 1 = true
  · rw [if_neg (by simp only [Bool.not_eq_true']; rcases hv with h | h <;> simp [h])]
    dsimp only
    rw [vfsIoctl_written, List.nil_append]
    simp only [hv, true_and]
    rfl
  · rw [if_pos (by simpa [not_or] using hv), if_neg fun h => hv h.1]

/-- An accepted pointer, in numbers. -/
theorem accepted_iff (arg : Nat) :
    (arg = 0 ∨ valPtr arg 1 = true) ↔ arg ≤ KERNEL_VIRT_BASE - 2 := by
  constructor
  · rintro (rfl | h)
    · exact Nat.zero_le _
    · obtain ⟨-, hlt, hsum⟩ := valPtr_true h
      simp only [KERNEL_VIRT_BASE] at *
      omega
  · intro h
    by_cases h0 : arg = 0
    · exact Or.inl h0
    · refine Or.inr ?_
      simp only [KERNEL_VIRT_BASE] at h
      rw [valPtr, if_neg (by simp only [KERNEL_VIRT_BASE]; omega),
        if_neg (by simp only [KERNEL_VIRT_BASE]; omega), if_neg h0]

/-- **The argument of an `ioctl`.**  The driver writes to user addresses only unless
it is asked for its structure at `NULL` or closer than its size to the kernel. -/
theorem ioctl_userAddr_iff (s : VfsState InfoWorld) (regs : Registers) :
    (∀ a ∈ ioctlWrites resolve flags s regs, UserAddr a) ↔
      ¬ (HasIoctl s (toInt32 regs.ebx) ∧ toInt32 regs.ecx = 1 ∧
        (regs.edx = 0 ∨
          KERNEL_VIRT_BASE - 24 < regs.edx ∧ regs.edx ≤ KERNEL_VIRT_BASE - 2)) := by
  simp only [ioctlWrites_eq, accepted_iff]
  split
  case isTrue h =>
    obtain ⟨hacc, hio, hreq⟩ := h
    simp only [hio, hreq, true_and]
    have hmem : ∀ a, a ∈ addresses regs.edx 24 ↔ regs.edx ≤ a ∧ a < regs.edx + 24 := by
      intro a
      simp only [KERNEL_VIRT_BASE] at hacc
      rw [mem_addresses (by omega)]
      constructor
      · rintro ⟨i, hi, ha⟩
        omega
      · rintro ⟨h1, h2⟩
        exact ⟨a - regs.edx, by omega, by omega⟩
    constructor
    · rintro huser (h0 | ⟨hlow, -⟩)
      · exact absurd (huser 0 ((hmem 0).mpr (by omega))).1 (Nat.lt_irrefl 0)
      · have hkernel := huser KERNEL_VIRT_BASE ((hmem _).mpr (by
          simp only [KERNEL_VIRT_BASE] at *; omega))
        exact absurd hkernel.2 (Nat.lt_irrefl _)
    · intro hgood a ha
      obtain ⟨h1, h2⟩ := (hmem a).mp ha
      simp only [UserAddr, KERNEL_VIRT_BASE] at *
      omega
  case isFalse h =>
    refine iff_of_true (fun a ha => absurd ha List.not_mem_nil) ?_
    rintro ⟨hio, hreq, harg⟩
    refine h ⟨?_, hio, hreq⟩
    rcases harg with h0 | ⟨-, hhigh⟩
    · rw [h0]; exact Nat.zero_le _
    · exact hhigh

end

/-- `/dev/tty0` open as descriptor 0 of the kernel. -/
def ttyOpen : VfsState InfoWorld where
  kernelFdTable i := if i = 0 then 100 else 0
  fds _ _ := 0
  currProcess := 0
  files _ := ⟨1, 0, 0, 1⟩
  live _ := true
  world := ⟨fun _ => .tty, ⟨80, 25, 0, 0xffffff, 0, 0⟩, 3, 4, fun _ => 0, []⟩

/-- Asked for its structure at 0xbffffff0, the terminal writes to the kernel's first
bytes. -/
theorem ttyInfo_overEnd : ¬ ∀ a ∈ ioctlWrites (fun w _ => (none, w)) (fun _ _ => 0) ttyOpen
    ⟨6, 0, 1, 0xbffffff0⟩, UserAddr a :=
  fun h => absurd (h 0xc0000000 (by decide)).2 (by decide)

end FrogKernel.Ioctl
