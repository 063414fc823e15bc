import FrogKernel.Thread.Frames

/-!
# The system call interface (`initrd/usr/include`, `idt/isr.c`, `userspace/usyscall.c`)

A wrapper of the C library puts its parameters into registers, `isr128` saves
them as a `registers_t`, and the handler takes its parameters from there.
`agrees_iff` says when the handler gets what the wrapper was given: always but
for the last parameter of `readdir`, which the wrapper puts into `esi` and
`sys_readdir` takes from `ebp`.
-/

namespace FrogKernel.SyscallAbi

open FrogKernel.Bytes FrogKernel.Stacks
open FrogKernel.Process (Cpu wide privilege interrupt irqStub saveRegisters irqEntry irqEntry_eq
  frame frameSize entryEsp pushed_frame)

/-- A system call with its parameters, in the order of the C declaration. -/
inductive Call where
  | exit (code : Word)
  | «open» (path flags : Word)
  | close (fd : Word)
  | read (fd buf len : Word)
  | write (fd buf len : Word)
  | ioctl (fd request arg : Word)
  | readdir (fd index nameOut nameMax : Word)
  | fstat (fd st : Word)
  | gettimeofday (t : Word)
  | spawn (path argc argv : Word)
  | wait (pid exitCode : Word)
  | getpid
  | getppid
  deriving DecidableEq

/-! ## The wrappers -/

namespace Libc

def SYS_EXIT : Word := 1
def SYS_OPEN : Word := 2
def SYS_CLOSE : Word := 3
def SYS_READ : Word := 4
def SYS_WRITE : Word := 5
def SYS_IOCTL : Word := 6
def SYS_READDIR : Word := 7
def SYS_FSTAT : Word := 8
def SYS_TIME : Word := 9
def SYS_SPAWN : Word := 10
def SYS_WAIT : Word := 11
def SYS_GETPID : Word := 12
def SYS_GETPPID : Word := 13

/-- The registers at `int $0x80`; the compiler leaves the others as they are. -/
def syscall0 (cpu : Cpu) (num : Word) : Cpu := { cpu with eax := num }

def syscall1 (cpu : Cpu) (num a : Word) : Cpu := { cpu with eax := num, ebx := a }

def syscall2 (cpu : Cpu) (num a b : Word) : Cpu := { cpu with eax := num, ebx := a, ecx := b }

def syscall3 (cpu : Cpu) (num a b c : Word) : Cpu :=
  { cpu with eax := num, ebx := a, ecx := b, edx := c }

def syscall4 (cpu : Cpu) (num a b c d : Word) : Cpu :=
  { cpu with eax := num, ebx := a, ecx := b, edx := c, esi := d }

def exit (cpu : Cpu) (code : Word) : Cpu := syscall1 cpu SYS_EXIT code

def «open» (cpu : Cpu) (path flags : Word) : Cpu := syscall2 cpu SYS_OPEN path flags

def close (cpu : Cpu) (fd : Word) : Cpu := syscall1 cpu SYS_CLOSE fd

def read (cpu : Cpu) (fd buf len : Word) : Cpu := syscall3 cpu SYS_READ fd buf len

def write (cpu : Cpu) (fd buf len : Word) : Cpu := syscall3 cpu SYS_WRITE fd buf len

def ioctl (cpu : Cpu) (fd request arg : Word) : Cpu := syscall3 cpu SYS_IOCTL fd request arg

def readdir (cpu : Cpu) (fd index nameOut nameMax : Word) : Cpu :=
  syscall4 cpu SYS_READDIR fd index nameOut nameMax

def fstat (cpu : Cpu) (fd st : Word) : Cpu := syscall2 cpu SYS_FSTAT fd st

def gettimeofday (cpu : Cpu) (t : Word) : Cpu := syscall1 cpu SYS_TIME t

def spawn (cpu : Cpu) (path argc argv : Word) : Cpu := syscall3 cpu SYS_SPAWN path argv argc

def wait (cpu : Cpu) (pid exitCode : Word) : Cpu := syscall2 cpu SYS_WAIT pid exitCode

def getpid (cpu : Cpu) : Cpu := syscall0 cpu SYS_GETPID

def getppid (cpu : Cpu) : Cpu := syscall0 cpu SYS_GETPPID

end Libc

/-- The registers when the wrapper of a call traps. -/
def Call.trap (cpu : Cpu) : Call → Cpu
  | .exit code => Libc.exit cpu code
  | .«open» path flags => Libc.«open» cpu path flags
  | .close fd => Libc.close cpu fd
  | .read fd buf len => Libc.read cpu fd buf len
  | .write fd buf len => Libc.write cpu fd buf len
  | .ioctl fd request arg => Libc.ioctl cpu fd request arg
  | .readdir fd index nameOut nameMax => Libc.readdir cpu fd index nameOut nameMax
  | .fstat fd st => Libc.fstat cpu fd st
  | .gettimeofday t => Libc.gettimeofday cpu t
  | .spawn path argc argv => Libc.spawn cpu path argc argv
  | .wait pid exitCode => Libc.wait cpu pid exitCode
  | .getpid => Libc.getpid cpu
  | .getppid => Libc.getppid cpu

/-! ## The registers on the kernel stack -/

/-- `registers_t` -/
structure Registers where
  gs : Word
  fs : Word
  es : Word
  ds : Word
  edi : Word
  esi : Word
  ebp : Word
  esp : Word
  ebx : Word
  edx : Word
  ecx : Word
  eax : Word
  intNum : Word
  errCode : Word
  eip : Word
  cs : Word
  eflags : Word

/-- A `registers_t` is its fields one after the other. -/
def loadRegisters (m : Mem) (regs : Word) : Registers :=
  let word (i : Nat) := peek m (regs + BitVec.ofNat 32 (4 * i))
  { gs := word 0, fs := word 1, es := word 2, ds := word 3
    edi := word 4, esi := word 5, ebp := word 6, esp := word 7
    ebx := word 8, edx := word 9, ecx := word 10, eax := word 11
    intNum := word 12, errCode := word 13
    eip := word 14, cs := word 15, eflags := word 16 }

/-- `int $0x80`, `isr128` and `isr_common` up to the call of `exception_handler`:
the memory, and the pointer it is called with. -/
def isr128 (m : Mem) (cpu : Cpu) (esp0 : Word) : Mem × Word :=
  saveRegisters (irqStub (interrupt m cpu esp0) 128) cpu

/-! ## The handlers -/

def SYS_EXIT : Nat := 1
def SYS_OPEN : Nat := 2
def SYS_CLOSE : Nat := 3
def SYS_READ : Nat := 4
def SYS_WRITE : Nat := 5
def SYS_IOCTL : Nat := 6
def SYS_READDIR : Nat := 7
def SYS_FSTAT : Nat := 8
def SYS_TIME : Nat := 9
def SYS_SPAWN : Nat := 10
def SYS_WAIT : Nat := 11
def SYS_GETPID : Nat := 12
def SYS_GETPPID : Nat := 13

/-- A `syscall_handler_t`, as far as the parameters that it takes from the
registers. -/
abbrev Handler := Registers → Call

def sysOpen : Handler := fun regs => .«open» regs.ebx regs.ecx
def sysClose : Handler := fun regs => .close regs.ebx
def sysRead : Handler := fun regs => .read regs.ebx regs.ecx regs.edx
def sysWrite : Handler := fun regs => .write regs.ebx regs.ecx regs.edx
def sysIoctl : Handler := fun regs => .ioctl regs.ebx regs.ecx regs.edx
def sysReaddir : Handler := fun regs => .readdir regs.ebx regs.ecx regs.edx regs.ebp
def sysFstat : Handler := fun regs => .fstat regs.ebx regs.ecx
def sysExit : Handler := fun regs => .exit regs.ebx
def sysTime : Handler := fun regs => .gettimeofday regs.ebx

/-- `sys_spawn` takes the vector before the count. -/
def sysSpawn : Handler := fun regs =>
  let path := regs.ebx
  let userArgv := regs.ecx
  let argc := regs.edx
  .spawn path argc userArgv

def sysWait : Handler := fun regs => .wait regs.ebx regs.ecx
def sysGetpid : Handler := fun _ => .getpid
def sysGetppid : Handler := fun _ => .getppid

/-- `syscall_handlers` -/
abbrev HandlerTable := Nat → Option Handler

def syscallRegister (handlers : HandlerTable) (num : Nat) (handler : Handler) : HandlerTable :=
  fun n => if n = num then some handler else handlers n

def registrations : List (Nat × Handler) :=
  [(SYS_EXIT, sysExit), (SYS_OPEN, sysOpen), (SYS_CLOSE, sysClose), (SYS_READ, sysRead),
    (SYS_WRITE, sysWrite), (SYS_IOCTL, sysIoctl), (SYS_READDIR, sysReaddir),
    (SYS_FSTAT, sysFstat), (SYS_TIME, sysTime), (SYS_SPAWN, sysSpawn), (SYS_WAIT, sysWait),
    (SYS_GETPID, sysGetpid), (SYS_GETPPID, sysGetppid)]

def userspaceInit : HandlerTable :=
  registrations.foldl (fun handlers r => syscallRegister handlers r.1 r.2) fun _ => none

/-- The system calls of `exception_handler`: what the handler takes from the
registers. -/
def exceptionHandler (handlers : HandlerTable) (m : Mem) (regs : Word) : Option Call :=
  let r := loadRegisters m regs
  if r.intNum = 0x80 then
    let num := (r.eax &&& 0xff).toNat
    (handlers num).map fun handler => handler r
  else none

/-- The call that the kernel gets when the wrapper of `call` traps. -/
def received (m : Mem) (cpu : Cpu) (esp0 : Word) (call : Call) : Option Call :=
  let s := isr128 m (call.trap cpu) esp0
  exceptionHandler userspaceInit s.1 s.2

/-! ## What the kernel gets -/

/-- The registers as they lie in the frame; `pusha` stores a stack pointer of its
own. -/
def saved (cpu : Cpu) (skipped : Word) : Registers :=
  { gs := wide cpu.gs, fs := wide cpu.fs, es := wide cpu.es, ds := wide cpu.ds
    edi := cpu.edi, esi := cpu.esi, ebp := cpu.ebp, esp := skipped
    ebx := cpu.ebx, edx := cpu.edx, ecx := cpu.ecx, eax := cpu.eax
    intNum := 128, errCode := 0
    eip := cpu.eip, cs := wide cpu.cs, eflags := cpu.eflags }

theorem loadRegisters_frame {m : Mem} {regs : Word} {cpu : Cpu} {skipped : Word}
    (h : Stack m regs (frame cpu skipped 128 0)) : loadRegisters m regs = saved cpu skipped := by
  have hlen : 17 ≤ (frame cpu skipped 128 0).length := by
    rw [frame, List.length_append]
    exact Nat.le_add_right 17 _
  have hword : ∀ i, (hi : i < 17) → peek m (regs + BitVec.ofNat 32 (4 * i)) =
      (frame cpu skipped 128 0).get ⟨i, Nat.lt_of_lt_of_le hi hlen⟩ :=
    fun i hi => stack_getElem h _
  simp only [loadRegisters, saved, Registers.mk.injEq]
  exact ⟨hword 0 (by decide), hword 1 (by decide), hword 2 (by decide), hword 3 (by decide),
    hword 4 (by decide), hword 5 (by decide), hword 6 (by decide), hword 7 (by decide),
    hword 8 (by decide), hword 9 (by decide), hword 10 (by decide), hword 11 (by decide),
    hword 12 (by decide), hword 13 (by decide), hword 14 (by decide), hword 15 (by decide),
    hword 16 (by decide)⟩

/-- The handlers see the registers of the caller. -/
theorem loadRegisters_isr128 {m : Mem} {cpu : Cpu} {esp0 : Word}
    (hroom : frameSize cpu ≤ (entryEsp cpu esp0).toNat) :
    ∃ skipped, loadRegisters (isr128 m cpu esp0).1 (isr128 m cpu esp0).2 = saved cpu skipped := by
  have heq : isr128 m cpu esp0 = irqEntry m cpu esp0 128 := rfl
  rw [heq, irqEntry_eq]
  refine ⟨(irqStub (interrupt m cpu esp0) 128).2, loadRegisters_frame ?_⟩
  have hlen := Process.frame_length cpu (irqStub (interrupt m cpu esp0) 128).2 128 0
  rw [← hlen, ← List.length_reverse] at hroom
  have hstack := stack_pushed (s := (m, entryEsp cpu esp0)) hroom
  rwa [List.reverse_reverse] at hstack

/-- A call as the kernel gets it: `sys_readdir` takes its last parameter from
`ebp`. -/
def Call.seen (ebp : Word) : Call → Call
  | .readdir fd index nameOut _ => .readdir fd index nameOut ebp
  | call => call

/-- The handler that a wrapper's number is for. -/
def Call.handler : Call → Handler
  | .exit .. => sysExit
  | .«open» .. => sysOpen
  | .close .. => sysClose
  | .read .. => sysRead
  | .write .. => sysWrite
  | .ioctl .. => sysIoctl
  | .readdir .. => sysReaddir
  | .fstat .. => sysFstat
  | .gettimeofday .. => sysTime
  | .spawn .. => sysSpawn
  | .wait .. => sysWait
  | .getpid => sysGetpid
  | .getppid => sysGetppid

def Call.number : Call → Nat
  | .exit .. => SYS_EXIT
  | .«open» .. => SYS_OPEN
  | .close .. => SYS_CLOSE
  | .read .. => SYS_READ
  | .write .. => SYS_WRITE
  | .ioctl .. => SYS_IOCTL
  | .readdir .. => SYS_READDIR
  | .fstat .. => SYS_FSTAT
  | .gettimeofday .. => SYS_TIME
  | .spawn .. => SYS_SPAWN
  | .wait .. => SYS_WAIT
  | .getpid => SYS_GETPID
  | .getppid => SYS_GETPPID

theorem trap_number (cpu : Cpu) (call : Call) :
    ((call.trap cpu).eax &&& 0xff).toNat = call.number := by
  have hsmall : ∀ n < 14, (BitVec.ofNat 32 n &&& 0xff).toNat = n := by decide
  have hlt : call.number < 14 := by
    cases call <;> exact Nat.le_of_ble_eq_true rfl
  have heax : (call.trap cpu).eax = BitVec.ofNat 32 call.number := by
    cases call <;> rfl
  rw [heax, hsmall _ hlt]

theorem userspaceInit_number (call : Call) : userspaceInit call.number = some call.handler := by
  cases call <;> rfl

theorem handler_saved (cpu : Cpu) (skipped : Word) (call : Call) :
    call.handler (saved (call.trap cpu) skipped) = call.seen cpu.ebp := by
  cases call <;> rfl

theorem exceptionHandler_saved (cpu : Cpu) (skipped : Word) (call : Call) {m : Mem} {regs : Word}
    (h : loadRegisters m regs = saved (call.trap cpu) skipped) :
    exceptionHandler userspaceInit m regs = some (call.seen cpu.ebp) := by
  have hint : (saved (call.trap cpu) skipped).intNum = 0x80 := rfl
  have heax : (saved (call.trap cpu) skipped).eax = (call.trap cpu).eax := rfl
  simp only [exceptionHandler, h]
  rw [if_pos hint, heax, trap_number, userspaceInit_number, Option.map_some, handler_saved]

theorem trap_frameSize (cpu : Cpu) (call : Call) : frameSize (call.trap cpu) = frameSize cpu := by
  cases call <;> rfl

theorem trap_entryEsp (cpu : Cpu) (call : Call) (esp0 : Word) :
    entryEsp (call.trap cpu) esp0 = entryEsp cpu esp0 := by
  cases call <;> rfl

theorem received_eq (m : Mem) {cpu : Cpu} {esp0 : Word} (call : Call)
    (hroom : frameSize cpu ≤ (entryEsp cpu esp0).toNat) :
    received m cpu esp0 call = some (call.seen cpu.ebp) := by
  rw [← trap_frameSize cpu call, ← trap_entryEsp cpu call] at hroom
  obtain ⟨skipped, hload⟩ := loadRegisters_isr128 (m := m) hroom
  have hseen := exceptionHandler_saved cpu skipped call hload
  rw [received, hseen]

/-- The kernel gets the parameters that the wrapper was given. -/
def Agrees (m : Mem) (cpu : Cpu) (esp0 : Word) (call : Call) : Prop :=
  received m cpu esp0 call = some call

/-- The last parameter of `readdir` is what `ebp` happens to hold. -/
def NameMaxInEbp (cpu : Cpu) : Call → Prop
  | .readdir _ _ _ nameMax => nameMax = cpu.ebp
  | _ => True

instance (cpu : Cpu) (call : Call) : Decidable (NameMaxInEbp cpu call) :=
  match call with
  | .readdir _ _ _ nameMax => inferInstanceAs (Decidable (nameMax = cpu.ebp))
  | .exit .. | .«open» .. | .close .. | .read .. | .write .. | .ioctl .. | .fstat ..
  | .gettimeofday .. | .spawn .. | .wait .. | .getpid | .getppid => inferInstanceAs (Decidable True)

/-- **The interface.**  With room for the frame on the kernel stack, the handler
gets every parameter of every wrapper, except the last one of `readdir`. -/
theorem agrees_iff (m : Mem) (cpu : Cpu) (esp0 : Word) (call : Call)
    (hroom : frameSize cpu ≤ (entryEsp cpu esp0).toNat) :
    Agrees m cpu esp0 call ↔ NameMaxInEbp cpu call := by
  rw [Agrees, received_eq m call hroom, Option.some.injEq]
  cases call with
  | readdir fd index nameOut nameMax => simp [Call.seen, NameMaxInEbp, eq_comm]
  | _ => simp [Call.seen, NameMaxInEbp]

/-- A process in a function without a frame pointer. -/
def caller : Cpu := { Process.uprocessCpu 0x400000 0xafffff00 with ebp := 7 }

theorem read_agrees : Agrees (fun _ => 0) caller 0xd0004000 (.read 3 0x500000 64) :=
  (agrees_iff (fun _ => 0) caller 0xd0004000 (.read 3 0x500000 64) (by decide)).2 (by decide)

/-- `sys_readdir` takes 7 for the size of a buffer of 256 bytes. -/
theorem readdir_disagrees :
    received (fun _ => 0) caller 0xd0004000 (.readdir 3 0 0x500000 256) =
        some (.readdir 3 0 0x500000 7) ∧
      ¬ Agrees (fun _ => 0) caller 0xd0004000 (.readdir 3 0 0x500000 256) := by
  have hroom : frameSize caller ≤ (entryEsp caller 0xd0004000).toNat := by decide
  have hseen := received_eq (fun _ => 0) (.readdir 3 0 0x500000 256) hroom
  refine ⟨hseen, fun h => ?_⟩
  rw [Agrees, hseen] at h
  exact absurd h (by decide)

end FrogKernel.SyscallAbi
