import FrogKernel.Lib.Runs
import FrogKernel.Thread.Kthread
import FrogKernel.Userspace.UserBuffer

/-!
# The process system

The handlers that create, end and await processes (`userspace/usyscall.c`),
the blocking reads of the terminal (`devices/tty/tty.c`) and the interrupts
between which threads are switched (`idt/isr_stubs.s`), as steps of one
machine.

A handler runs with interrupts off and is one step, up to the point where it
lets them in.  That is never in `sys_spawn`, at the end of `sys_exit`, in the
loop of `sys_wait` and at `hlt` in `tty_read`.  After its loop `sys_wait` goes
on with interrupts, so each of its statements is a step.
-/

namespace FrogKernel.Process

open FrogKernel.Tty FrogKernel.Syscall FrogKernel.Runs

/-! ## Handlers -/

/-- `sys_spawn` from `uprocess_create` on; the loading of the image before it
touches no thread and no process. -/
def sysSpawn (s : System) (p t : Ptr) (pageDir : Nat) : Option System :=
  let parent := s.currProcess
  let s := uprocessCreate s p t pageDir
  let s := setProc s p fun r => { r with parent }
  schedulerAdd s (s.proc p).thread

def sysExit (s : System) (code : Nat) : System :=
  let s := setProc s s.currProcess fun r => { r with exitCode := code }
  let s := setProc s s.currProcess fun r => { r with state := .dead }
  let s := setThread s s.currThread fun r => { r with state := .dead }
  let parent := (s.proc s.currProcess).parent
  let s :=
    if parent ≠ 0 ∧ (s.proc parent).state = .waiting then
      let s := setProc s parent fun r => { r with state := .running }
      setThread s (s.proc parent).thread fun r => { r with state := .ready }
    else s
  { s with schedulePending := true, running := .exitLoop }

/-- The thread that `sys_exit` makes ready, or `NULL`. -/
def exitWakes (s : System) : Ptr :=
  let parent := (s.proc s.currProcess).parent
  if parent ≠ 0 ∧ (s.proc parent).state = .waiting then (s.proc parent).thread else 0

/-- The statements of `sys_wait` before its loop. -/
def waitBlock (s : System) (w : WaitCall) : System :=
  let s := setProc s s.currProcess fun r => { r with state := .waiting }
  let s := setThread s s.currThread fun r => { r with state := .blocked }
  { s with schedulePending := true, running := .waitLoop w }

/-- `sys_wait` up to its loop, or up to the statement after it.  A return of -1
leaves everything as it is. -/
def sysWait (s : System) (childPid : Nat) (exitCode : Ptr) : Option System :=
  if exitCode ≠ 0 ∧ !valPtr exitCode 4 then some s
  else
    (uprocessFind s childPid).map fun child =>
      if child = 0 then s
      else if (s.proc child).parent ≠ s.currProcess then s
      else if (s.proc child).state ≠ .dead then
        waitBlock s { childPid, exitCode, child, stored := none }
      else { s with running := .waitTail { childPid, exitCode, child, stored := none } .store false }

/-- A statement of `sys_wait` after the loop.  `kfree` of the stack does
nothing: the byte it takes for `block->free` belongs to the flags that the
processor saved on the stack below, and is not 0. -/
def waitStatement (s : System) (w : WaitCall) (sti : Bool) : WaitStmt → Option System
  | .store =>
    let stored := if w.exitCode ≠ 0 then some (s.proc w.child).exitCode else none
    some { s with running := .waitTail { w with stored } .remove sti }
  | .remove =>
    (uprocessRemove s w.childPid).map fun s => { s with running := .waitTail w .freeStack sti }
  | .freeStack => some { s with running := .waitTail w .freeThread sti }
  | .freeThread =>
    some { kfreeThread s (s.proc w.child).thread with running := .waitTail w .freeProcess sti }
  | .freeProcess => some { kfreeProc s w.child with running := .waitTail w .ret sti }
  | .ret => some { s with running := .user }

/-- The loop of `tty_read`, up to the next `hlt` or to its end. -/
def ttyReadLoop (s : System) (len : Nat) : System :=
  if s.tty.ringCount = 0 ∨ hasNewline s.tty = false then
    let s := setThread s s.currThread fun r => { r with state := .blocked }
    { s with schedulePending := true, running := .ttyHalted len }
  else { s with tty := (ttyCopy s.tty len).2, running := .user }

/-- `tty_read` after `hlt`. -/
def ttyResume (s : System) (len : Nat) : System :=
  ttyReadLoop (setThread s s.currThread fun r => { r with state := .running }) len

/-! ## Interrupts -/

inductive Irq where
  /-- The timer; every tenth tick is due for a switch. -/
  | timer (due : Bool)
  /-- A key that gives a character. -/
  | keyboard (c : BitVec 8)
  | other

/-- Does `tty_input_push` get to its test of `curr_thread->state`? -/
def reachesWake (s : System) (c : BitVec 8) : Bool :=
  c != backspace && decide (s.tty.ringCount < TTY_RING_SIZE)

/-- The thread that an interrupt makes ready, or `NULL`. -/
def irqWakes (s : System) : Irq → Ptr
  | .keyboard c =>
    if reachesWake s c = true ∧ (s.thread s.currThread).state = .blocked then s.currThread else 0
  | _ => 0

def irqHandler (s : System) : Irq → System
  | .timer due => if s.currThread ≠ 0 ∧ due then { s with schedulePending := true } else s
  | .keyboard c =>
    let wakes := reachesWake s c = true ∧ (s.thread s.currThread).state = .blocked
    let s := { s with tty := (ttyInputPush s.tty c).1 }
    if wakes then
      { setThread s s.currThread fun r => { r with state := .ready } with schedulePending := true }
    else s
  | .other => s

/-- Interrupts are on in user code, in the kernel threads and in the loops and
statements after an `sti`. -/
def Cont.interruptible : Cont → Bool
  | .waitTail _ _ sti => sti
  | _ => true

/-- An interrupt ends a `hlt`. -/
def Cont.afterHlt : Cont → Cont
  | .ttyHalted len => .ttyWoken len
  | c => c

def Cont.inWaitLoop : Cont → Bool
  | .waitLoop _ => true
  | _ => false

def Cont.inTtyHalt : Cont → Bool
  | .ttyHalted _ => true
  | _ => false

/-! ## Steps -/

/-- What a step shows. -/
inductive Event where
  /-- The process with pid `parent` gets a child; `reused` is overwritten memory. -/
  | spawn (parent pid : Nat) (p t : Ptr) (reused : List Ptr)
  | spawnFailed (reused : List Ptr)
  /-- Thread `t` of process `pid` exits and wakes a thread (or `NULL`). -/
  | exit (t : Ptr) (pid code : Nat) (woken : Ptr)
  | wait (t : Ptr) (blocked : Bool)
  /-- The loop of `sys_wait` ends. -/
  | waitEnds
  | waitStatement (stmt : WaitStmt)
  /-- `sys_wait(pid)` returns 0 to the process with pid `caller`. -/
  | waitReturn (caller pid : Nat) (stored : Option Nat)
  | ttyRead (t : Ptr) (blocked : Bool)
  | irq (woken : Ptr)
  | irqReturn
  | switch (old next : Ptr)
  deriving DecidableEq

/-- Buffers that `sys_spawn` allocates and frees again overwrite memory that
holds no allocated record. -/
def overwrite (s : System) (reused : List Ptr) (thread : Ptr → ThreadT) (proc : Ptr → ProcessT) :
    System :=
  { s with
    thread := fun x => if x ∈ reused then thread x else s.thread x
    proc := fun x => if x ∈ reused then proc x else s.proc x }

def Unallocated (s : System) (reused : List Ptr) : Prop := ∀ x ∈ reused, x ∉ s.thrds ∧ x ∉ s.procs

/-- One step of the machine.  A system call needs user code to run; inside
`irq_common` nothing else happens.  The page directory of a new process is a
frame that `pmm_alloc_frame` gave, so it is not 0. -/
inductive SysStep : System → Event → System → Prop
  | spawn {s s' : System} {p t : Ptr} {pageDir : Nat} {reused : List Ptr} {mt : Ptr → ThreadT}
      {mp : Ptr → ProcessT} : s.running = .user → s.inIrq = false → Unallocated s reused →
      Fresh s p → Fresh s t → p ≠ t → pageDir ≠ 0 →
      s.largeAllocBase + KSTACK_SIZE ≤ 2 ^ 32 →
      sysSpawn (overwrite s reused mt mp) p t pageDir = some s' →
      SysStep s (.spawn (s.proc s.currProcess).pid s.nextPid p t reused) s'
  | spawnFailed {s : System} {reused : List Ptr} {mt : Ptr → ThreadT} {mp : Ptr → ProcessT} :
      s.running = .user → s.inIrq = false → Unallocated s reused →
      SysStep s (.spawnFailed reused) (overwrite s reused mt mp)
  | exit {s : System} {code : Nat} : s.running = .user → s.inIrq = false →
      SysStep s (.exit s.currThread (s.proc s.currProcess).pid code (exitWakes s)) (sysExit s code)
  | wait {s s' : System} {pid : Nat} {exitCode : Ptr} : s.running = .user → s.inIrq = false →
      sysWait s pid exitCode = some s' →
      SysStep s (.wait s.currThread s'.running.inWaitLoop) s'
  | waitEnds {s : System} {w : WaitCall} : s.running = .waitLoop w → s.inIrq = false →
      (s.proc s.currProcess).state ≠ .waiting →
      SysStep s .waitEnds { s with running := .waitTail w .store true }
  | waitStatement {s s' : System} {w : WaitCall} {stmt : WaitStmt} {sti : Bool} :
      s.running = .waitTail w stmt sti → s.inIrq = false → stmt ≠ .ret →
      Process.waitStatement s w sti stmt = some s' → SysStep s (.waitStatement stmt) s'
  | waitReturn {s s' : System} {w : WaitCall} {sti : Bool} : s.running = .waitTail w .ret sti →
      s.inIrq = false → Process.waitStatement s w sti .ret = some s' →
      SysStep s (.waitReturn (s.proc s.currProcess).pid w.childPid w.stored) s'
  | ttyRead {s : System} {len : Nat} : s.running = .user → s.inIrq = false →
      SysStep s (.ttyRead s.currThread (ttyReadLoop s len).running.inTtyHalt) (ttyReadLoop s len)
  | ttyResume {s : System} {len : Nat} : s.running = .ttyWoken len → s.inIrq = false →
      SysStep s (.ttyRead s.currThread (ttyResume s len).running.inTtyHalt) (ttyResume s len)
  | irq {s : System} {src : Irq} : s.running.interruptible = true → s.inIrq = false →
      SysStep s (.irq (irqWakes s src))
        { irqHandler s src with running := s.running.afterHlt, inIrq := true }
  | irqReturn {s : System} : s.inIrq = true → s.schedulePending = false ∨ s.currThread = 0 →
      SysStep s .irqReturn { s with inIrq := false, schedulePending := false }
  | switch {s s' : System} {next : Ptr} : s.inIrq = true → s.schedulePending = true →
      s.currThread ≠ 0 → schedulerSwitch { s with schedulePending := false } = some (next, s') →
      SysStep s (.switch s.currThread next) { s' with inIrq := false }

/-! ## Boot -/

/-- What `kmain` finds and what `kmalloc` returns to it. -/
structure Boot where
  thread : Ptr → ThreadT
  proc : Ptr → ProcessT
  tty : TtyT
  kernelPdPhys : Nat
  pageDir : Nat
  largeAllocBase : Nat
  idle : Ptr
  main : Ptr
  initThread : Ptr
  init : Ptr
  base_le : LARGE_ALLOC_BASE ≤ largeAllocBase
  pageDir_ne : pageDir ≠ 0
  nonzero : idle ≠ 0 ∧ main ≠ 0 ∧ initThread ≠ 0 ∧ init ≠ 0
  distinct : [idle, main, initThread, init].Nodup

/-- The idle thread, the main thread and the first process. -/
def bootRecords (b : Boot) : System :=
  let s : System :=
    { thread := b.thread, proc := b.proc, threadListHead := 0, idleThread := 0, currThread := 0
      currProcess := 0, processList := 0, nextPid := 1, schedulePending := false
      largeAllocBase := b.largeAllocBase, tssEsp0 := 0, cr3 := b.kernelPdPhys
      kernelPdPhys := b.kernelPdPhys, tty := b.tty, running := .kernel, inIrq := false
      thrds := [], procs := [], freedThrds := [], freedProcs := [] }
  let s := { kthreadCreate s b.idle KSTACK_SIZE with idleThread := b.idle }
  let s := kthreadCreate s b.main KSTACK_SIZE
  uprocessCreate s b.init b.initThread b.pageDir

/-- The part of `kmain` that creates the first threads, up to the `iret` into
the main thread. -/
def kmain (b : Boot) : Option System :=
  (schedulerAdd (bootRecords b) b.idle).bind fun s =>
    (schedulerAdd s b.main).bind fun s =>
      (schedulerAdd s (s.proc b.init).thread).map fun s =>
        let s := setThread { s with currThread := b.main } b.main fun r => { r with state := .running }
        { s with
          tssEsp0 := (s.thread s.currThread).stackBase + (s.thread s.currThread).stackSize
          running := (s.thread s.currThread).esp }

end FrogKernel.Process
