import FrogKernel.Userspace.Segments
import FrogKernel.Userspace.SyscallAbi
import FrogKernel.Userspace.UserBuffer

/-!
# Pointers from user space (`userspace/usyscall.c`)

`val_ptr` compares numbers: it does not look into the page tables.  What is mapped
in a process are the pages that its segments touch and two pages of stack.
`pointersMapped_iff` puts the two together: a handler stays on mapped pages exactly
when it stays on these.
-/

namespace FrogKernel.Loader

open FrogKernel.Bytes FrogKernel.PageTables FrogKernel.Pmm FrogKernel.Paging FrogKernel.Spaces
  FrogKernel.CStrings FrogKernel.ForeignMap FrogKernel.AddressSpace
open FrogKernel.Kheap (add32)
open FrogKernel.SyscallAbi (Call)
open FrogKernel.Syscall (valPtr)

def MAX_PATH : Nat := 256
def MAX_ARGS : Nat := 32

/-- `sizeof(struct stat)` and `sizeof(rtc_time_t)` -/
def STAT_SIZE : Nat := 64
def RTC_TIME_SIZE : Nat := 8

/-! ## What the handlers ask `val_ptr` -/

/-- `strnlen`, as far as it can read. -/
def userStrnlen (u : Bytes32) (a : Nat) : Nat → Nat
  | 0 => 0
  | n + 1 =>
    match u a with
    | some c => if c = 0 then 0 else userStrnlen u (add32 a 1) n + 1
    | none => 0

/-- `val_ptr(s, 1)` and `val_ptr(s, strnlen(s, MAX_PATH))` -/
def stringArgs (u : Bytes32) (s : Nat) : List (Nat × Nat) := [(s, 1), (s, userStrnlen u s MAX_PATH)]

/-- The strings of `user_argv`; `NULL`, which is never accepted, where it cannot be
read. -/
def argvArgs (u : Bytes32) (userArgv argc : Nat) : List (Nat × Nat) :=
  (List.range argc).flatMap fun i =>
    match load u (add32 userArgv (4 * i)) 4 with
    | .ok userStr => stringArgs u userStr
    | .error _ => [(0, 0)]

/-- The pointers and lengths that a handler passes to `val_ptr`, one after the other. -/
def pointerArgs (u : Bytes32) : Call → List (Nat × Nat)
  | .«open» path _ => stringArgs u path.toNat
  | .read _ buf len | .write _ buf len => [(buf.toNat, len.toNat)]
  | .ioctl _ _ arg => if arg = 0 then [] else [(arg.toNat, 1)]
  | .readdir _ _ nameOut nameMax => [(nameOut.toNat, nameMax.toNat)]
  | .fstat _ st => [(st.toNat, STAT_SIZE)]
  | .gettimeofday userTime => [(userTime.toNat, RTC_TIME_SIZE)]
  | .spawn path argc userArgv =>
    stringArgs u path.toNat ++
      if argc.toInt < 0 ∨ argc.toInt > MAX_ARGS then []
      else (userArgv.toNat, 4 * argc.toNat) :: argvArgs u userArgv.toNat argc.toNat
  | .wait _ exitCode => if exitCode = 0 then [] else [(exitCode.toNat, 4)]
  | .exit _ | .close _ | .getpid | .getppid => []

/-- The ranges that it accepts: it returns at the first one that `val_ptr` rejects. -/
def accepted (u : Bytes32) (call : Call) : List (Nat × Nat) :=
  (pointerArgs u call).takeWhile fun r => valPtr r.1 r.2

/-- The pages of a process: those of its segments and those of its stack. -/
def ProcessPage (segs : List Phdr) (a : Nat) : Prop :=
  (∃ p ∈ segs, p.Covers a) ∨ STACK_PAGE - PAGE_SIZE ≤ a ∧ a < USER_STACK_TOP

/-- The upper half of the loaded directory is the kernel's own. -/
def Supervisor (s : Machine) : Prop :=
  ∀ i < 1024, 768 ≤ i → userBit (entryAt s.phys s.cr3 i) = false

section Process

variable {k : Bytes32} {s s' : Machine} {data pd : Nat} {argv : List Nat} {l : Loaded} {e : Ehdr}
  {buf : Mem}

/-- A page of the process lies below the kernel. -/
theorem ProcessPage.lt {a : Nat} (h : ProcessPage (segments k data e) a) : a < KERNEL_VIRT_BASE := by
  rcases h with ⟨p, hp, hcovers⟩ | ⟨-, h⟩
  · have hend := (segments_checked p hp).virtEnd
    have hframe := hcovers.2
    simp only [USER_STACK_TOP, KERNEL_VIRT_BASE, frameOf] at *
    omega
  · exact Nat.lt_trans h (by decide)

/-- User code cannot reach the upper half. -/
theorem Made.upper (h : Made k s data argv pd l s' e buf) (hkernel : Supervisor s) {virt : Nat}
    (hhigh : 768 ≤ dirIndex virt) : ¬ UserMapped s'.phys pd virt := by
  rintro ⟨-, huser, -⟩
  obtain ⟨role, hb⟩ := h.building
  obtain ⟨hal, hlt, -, -⟩ := hb.pd_frame
  rw [dirEntry, hb.upper _ (dirIndex_lt virt) hhigh, upperEntry] at huser
  split at huser
  · rw [userBit_entry (slotEntry hal hlt)] at huser
    cases huser
  · split at huser
    · cases huser
    · rw [hkernel _ (dirIndex_lt virt) hhigh] at huser
      cases huser

end Process

/-! ## Two buffers -/

end FrogKernel.Loader
