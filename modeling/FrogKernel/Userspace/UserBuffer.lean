import FrogKernel.Devices.Drivers

/-!
# The user buffers of `sys_read` and `sys_write` (`userspace/usyscall.c`)

`val_ptr` is the only check between the registers of a system call and a
driver that goes over the buffer.  `userOnly_iff` says when the check is good
enough: exactly when `buf + len` does not wrap around 2^32.
-/

namespace FrogKernel.Syscall

open FrogKernel.Vfs FrogKernel.Drivers

def KERNEL_VIRT_BASE : Nat := 0xc0000000

def valPtr (addr len : Nat) : Bool :=
  if addr ≥ KERNEL_VIRT_BASE then false
  else if (addr + len) % 2 ^ 32 ≥ KERNEL_VIRT_BASE then false
  else if addr = 0 then false
  else true

/-- The registers of `registers_t` a system call takes its arguments from and
returns its result in. -/
structure Registers where
  eax : Nat
  ebx : Nat
  ecx : Nat
  edx : Nat

/-- `(int)r` for a 32-bit register. -/
def toInt32 (r : Nat) : Int := if r < 2 ^ 31 then r else (r : Int) - 2 ^ 32

/-- `(uint32_t)n` -/
def toUint32 (n : Int) : Nat := (n % 2 ^ 32).toNat

/-- The common part of `sys_read` and `sys_write`; `call` is the `vfs` function. -/
def sysTransfer {W : Type} (call : VfsState W → Int → Nat → Nat → Int × VfsState W)
    (s : VfsState W) (regs : Registers) : Registers × VfsState W :=
  if !valPtr regs.ecx regs.edx then ({ regs with eax := toUint32 (-1) }, s)
  else
    let r := call s (toInt32 regs.ebx) regs.ecx regs.edx
    ({ regs with eax := toUint32 r.1 }, r.2)

def sysRead {W : Type} (d : Drivers W) (s : VfsState W) (regs : Registers) :
    Registers × VfsState W :=
  sysTransfer (vfsRead d) s regs

def sysWrite {W : Type} (d : Drivers W) (s : VfsState W) (regs : Registers) :
    Registers × VfsState W :=
  sysTransfer (vfsWrite d) s regs

/-- A user address: not `NULL` and below the kernel. -/
def UserAddr (a : Nat) : Prop := 0 < a ∧ a < KERNEL_VIRT_BASE

/-- Whatever is open behind `fd`, the bytes of the buffer that `sys_read` and
`sys_write` make a driver touch are user addresses. -/
def UserOnly (resolve : DevWorld → List (BitVec 8) → Option Ptr × DevWorld)
    (flags : DevWorld → Ptr → Nat) (buf len : Nat) : Prop :=
  ∀ (s : VfsState DevWorld) (regs : Registers), s.world.touched = [] →
    regs.ecx = buf → regs.edx = len →
    (∀ a ∈ (sysRead (deviceDrivers resolve flags) s regs).2.world.touched, UserAddr a) ∧
    (∀ a ∈ (sysWrite (deviceDrivers resolve flags) s regs).2.world.touched, UserAddr a)

theorem valPtr_true {addr len : Nat} (h : valPtr addr len = true) :
    0 < addr ∧ addr < KERNEL_VIRT_BASE ∧ (addr + len) % 2 ^ 32 < KERNEL_VIRT_BASE := by
  unfold valPtr at h
  split at h
  · cases h
  split at h
  · cases h
  split at h
  · cases h
  · omega

/-- Without a wrap-around every byte of an accepted buffer is a user address. -/
theorem valPtr_userBytes {buf len a : Nat} (h : valPtr buf len = true) (hw : buf + len < 2 ^ 32)
    (ha : a ∈ userBytes buf len) : UserAddr a := by
  obtain ⟨h0, -, hsum⟩ := valPtr_true h
  rw [Nat.mod_eq_of_lt hw] at hsum
  rw [mem_userBytes] at ha
  exact ⟨by omega, by omega⟩

theorem mem_userBytes_mono {buf n len a : Nat} (hn : n ≤ len) (ha : a ∈ userBytes buf n) :
    a ∈ userBytes buf len := by
  rw [mem_userBytes] at ha ⊢
  exact ⟨ha.1, by omega⟩

section

variable {resolve : DevWorld → List (BitVec 8) → Option Ptr × DevWorld}
  {flags : DevWorld → Ptr → Nat}

/-- A call goes over the first bytes of its buffer only. -/
def FirstBytes (call : VfsState DevWorld → Int → Nat → Nat → Int × VfsState DevWorld) : Prop :=
  ∀ s fd buf len, ∃ n, n ≤ len ∧
    (call s fd buf len).2.world.touched = s.world.touched ++ userBytes buf n

theorem vfsTransfer_firstBytes
    {sel : VnodeOps DevWorld → Option (DevWorld → Ptr → Nat → Nat → Nat → Int × DevWorld)}
    (hsel : ∀ w node op, ((deviceDrivers resolve flags).ops w node).bind sel = some op →
      ∃ op', StaysInside op' ∧ op w node = op' w) :
    FirstBytes (vfsTransfer sel (deviceDrivers resolve flags)) := by
  intro s fd buf len
  have hnone : s.world.touched = s.world.touched ++ userBytes buf 0 := by simp [userBytes]
  unfold vfsTransfer
  dsimp only
  split
  · exact ⟨0, Nat.zero_le len, hnone⟩
  split
  · exact ⟨0, Nat.zero_le len, hnone⟩
  · rename_i op hop
    obtain ⟨op', hin, heq⟩ := hsel _ _ _ hop
    obtain ⟨n, hn, ht⟩ := hin s.world buf len (s.files (getFile s fd)).offset
    refine ⟨n, hn, ?_⟩
    rw [heq]
    split <;> exact ht

theorem vfsRead_firstBytes : FirstBytes (vfsRead (deviceDrivers resolve flags)) := by
  refine vfsTransfer_firstBytes fun w node op hop => ?_
  simp only [deviceDrivers, Option.bind_some, Option.map_eq_some_iff] at hop
  obtain ⟨op', hdev, rfl⟩ := hop
  exact ⟨op', deviceRead_inside hdev, rfl⟩

theorem vfsWrite_firstBytes : FirstBytes (vfsWrite (deviceDrivers resolve flags)) := by
  refine vfsTransfer_firstBytes fun w node op hop => ?_
  simp only [deviceDrivers, Option.bind_some, Option.map_eq_some_iff] at hop
  obtain ⟨op', hdev, rfl⟩ := hop
  exact ⟨op', deviceWrite_inside hdev, rfl⟩

/-- A call that goes over the first bytes of an accepted, unwrapped buffer
touches user addresses only. -/
theorem sysTransfer_userAddr
    {call : VfsState DevWorld → Int → Nat → Nat → Int × VfsState DevWorld} (hc : FirstBytes call)
    {s : VfsState DevWorld} {regs : Registers} (hlog : s.world.touched = [])
    (hv : valPtr regs.ecx regs.edx = true) (hw : regs.ecx + regs.edx < 2 ^ 32) :
    ∀ a ∈ (sysTransfer call s regs).2.world.touched, UserAddr a := by
  intro a ha
  simp only [sysTransfer, hv, Bool.not_true, Bool.false_eq_true, ↓reduceIte] at ha
  obtain ⟨n, hn, ht⟩ := hc s (toInt32 regs.ebx) regs.ecx regs.edx
  rw [ht, hlog, List.nil_append] at ha
  exact valPtr_userBytes hv hw (mem_userBytes_mono hn ha)

end

/-- `/dev/zero` open as descriptor 0 of the kernel. -/
def zeroOpen : VfsState DevWorld where
  kernelFdTable i := if i = 0 then 100 else 0
  fds _ _ := 0
  currProcess := 0
  files _ := ⟨1, 0, 0, 1⟩
  live _ := true
  world := ⟨fun _ => .zero, ⟨fun _ => 0#8, 0, 0, 0, 0⟩, []⟩

/-- Reading `/dev/zero` touches the whole buffer. -/
theorem sysRead_zero (resolve : DevWorld → List (BitVec 8) → Option Ptr × DevWorld)
    (flags : DevWorld → Ptr → Nat) {buf len : Nat} (hv : valPtr buf len = true) :
    (sysRead (deviceDrivers resolve flags) zeroOpen ⟨4, 0, buf, len⟩).2.world.touched =
      userBytes buf len := by
  simp only [sysRead, sysTransfer, hv, Bool.not_true, Bool.false_eq_true, ↓reduceIte]
  unfold vfsRead vfsTransfer
  dsimp only
  rw [if_neg (by decide)]
  simp only [deviceDrivers, zeroOpen, deviceRead, Option.map_some, Option.bind_some, zeroRead,
    touch, List.nil_append]
  split <;> rfl

/-- **`val_ptr` guards a buffer exactly when its end does not wrap around.**
For an accepted pair, no driver behind `sys_read` or `sys_write` touches a byte
outside user space if and only if `buf + len` is below 2^32. -/
theorem userOnly_iff (resolve : DevWorld → List (BitVec 8) → Option Ptr × DevWorld)
    (flags : DevWorld → Ptr → Nat) (buf len : Nat) (hv : valPtr buf len = true) :
    UserOnly resolve flags buf len ↔ buf + len < 2 ^ 32 := by
  constructor
  · intro h
    by_contra hw
    have hkernel : KERNEL_VIRT_BASE ∈ userBytes buf len := by
      obtain ⟨-, hbuf, -⟩ := valPtr_true hv
      rw [mem_userBytes]
      unfold KERNEL_VIRT_BASE at *
      omega
    have hsafe := (h zeroOpen ⟨4, 0, buf, len⟩ rfl rfl rfl).1 KERNEL_VIRT_BASE
    rw [sysRead_zero resolve flags hv] at hsafe
    exact Nat.lt_irrefl _ (hsafe hkernel).2
  · rintro hw s regs hlog rfl rfl
    exact ⟨sysTransfer_userAddr vfsRead_firstBytes hlog hv hw,
      sysTransfer_userAddr vfsWrite_firstBytes hlog hv hw⟩

/-- A kernel without mounts. -/
def noMounts (w : DevWorld) (_path : List (BitVec 8)) : Option Ptr × DevWorld := (none, w)

theorem userOnly_smallBuffer :
    UserOnly noMounts (fun _ _ => 0) 0x1000 16 :=
  (userOnly_iff noMounts (fun _ _ => 0) 0x1000 16 (by decide)).mpr (by decide)

/-- The buffer at 0x1000 whose end wraps around to 0 is accepted, and
`/dev/zero` clears the kernel. -/
theorem valPtr_accepts_kernel :
    valPtr 0x1000 0xfffff000 = true ∧ ¬ UserOnly noMounts (fun _ _ => 0) 0x1000 0xfffff000 := by
  refine ⟨by decide, fun h => ?_⟩
  have hsafe := (h zeroOpen ⟨4, 0, 0x1000, 0xfffff000⟩ rfl rfl rfl).1 KERNEL_VIRT_BASE
  rw [sysRead_zero noMounts (fun _ _ => 0) (by decide)] at hsafe
  exact Nat.lt_irrefl _ (hsafe (mem_userBytes.mpr (by decide))).2

end FrogKernel.Syscall
