import Mathlib.Logic.Function.Basic
import Mathlib.Tactic.Common
import FrogKernel.Devices.Tty
import FrogKernel.Lib.DList

/-!
# Threads and processes (`thread/kthread.c`, `userspace/uprocess.c`)

Threads and processes are records in heap memory, reached by address.  Memory
that was freed keeps its contents until it is handed out again, so the two
memories `thread` and `proc` are total functions, and the lists `thrds` and
`procs` say which records are allocated.

What a processor runs is a `Cont`: a place in user code, in a kernel thread or
in one of the handlers that let interrupts in.  The saved context that
`thread_t.esp` points at is the `Cont` to go on with.
-/

namespace FrogKernel.Process

open FrogKernel.DList FrogKernel.Tty

/-- An address; 0 is `NULL`. -/
abbrev Ptr := Nat

/-- `thread_state_t` -/
inductive ThreadState where
  | ready
  | running
  | blocked
  | dead
  deriving DecidableEq

/-- `process_state_t` -/
inductive ProcessState where
  | running
  | dead
  | waiting
  deriving DecidableEq

/-- The locals of `sys_wait`; `stored` is what it wrote through `exit_code`. -/
structure WaitCall where
  childPid : Nat
  exitCode : Ptr
  child : Ptr
  stored : Option Nat
  deriving DecidableEq

/-- The statements of `sys_wait` after its loop. -/
inductive WaitStmt where
  | store
  | remove
  | freeStack
  | freeThread
  | freeProcess
  | ret
  deriving DecidableEq

/-- Where execution goes on. -/
inductive Cont where
  | user
  | kernel
  /-- `while (1) hlt` in `sys_exit` -/
  | exitLoop
  /-- `while (curr_process->state == PROCESS_WAITING) hlt` -/
  | waitLoop (w : WaitCall)
  /-- The rest of `sys_wait`, from a statement on, with or without interrupts. -/
  | waitTail (w : WaitCall) (stmt : WaitStmt) (sti : Bool)
  /-- `hlt` in `tty_read` -/
  | ttyHalted (len : Nat)
  /-- The same, once an interrupt has come in. -/
  | ttyWoken (len : Nat)
  deriving DecidableEq

/-- `thread_t` -/
structure ThreadT where
  esp : Cont
  stackBase : Nat
  stackSize : Nat
  state : ThreadState
  process : Ptr
  next : Ptr
  deriving DecidableEq

/-- `process_t`, less the fields no function here reads. -/
structure ProcessT where
  pid : Nat
  pageDir : Nat
  thread : Ptr
  state : ProcessState
  parent : Ptr
  next : Ptr
  exitCode : Nat
  deriving DecidableEq

def PAGE_SIZE : Nat := 0x1000
def KSTACK_SIZE : Nat := 0x2000
def LARGE_ALLOC_BASE : Nat := 0xe0000000

structure System where
  thread : Ptr → ThreadT
  proc : Ptr → ProcessT
  threadListHead : Ptr
  idleThread : Ptr
  currThread : Ptr
  currProcess : Ptr
  processList : Ptr
  nextPid : Nat
  schedulePending : Bool
  largeAllocBase : Nat
  /-- Kernel stack of the task state segment, loaded directory, `kernel_pd_phys`. -/
  tssEsp0 : Nat
  cr3 : Nat
  kernelPdPhys : Nat
  tty : TtyT
  /-- What the processor runs. -/
  running : Cont
  /-- Between an interrupt handler and the end of `irq_common`. -/
  inIrq : Bool
  /-- Allocated records, and records passed to `kfree` and not handed out since. -/
  thrds : List Ptr
  procs : List Ptr
  freedThrds : List Ptr
  freedProcs : List Ptr

/-- `t->field = …` -/
def setThread (s : System) (t : Ptr) (f : ThreadT → ThreadT) : System :=
  { s with thread := Function.update s.thread t (f (s.thread t)) }

/-- `p->field = …` -/
def setProc (s : System) (p : Ptr) (f : ProcessT → ProcessT) : System :=
  { s with proc := Function.update s.proc p (f (s.proc p)) }

/-- `kmalloc` may return any address but `NULL` and those of allocated records. -/
def Fresh (s : System) (x : Ptr) : Prop := x ≠ 0 ∧ x ∉ s.thrds ∧ x ∉ s.procs

instance (s : System) (x : Ptr) : Decidable (Fresh s x) := inferInstanceAs (Decidable (_ ∧ _ ∧ _))

def kmallocThread (s : System) (t : Ptr) : System :=
  { s with thrds := t :: s.thrds, freedThrds := s.freedThrds.erase t, freedProcs := s.freedProcs.erase t }

def kmallocProc (s : System) (p : Ptr) : System :=
  { s with procs := p :: s.procs, freedThrds := s.freedThrds.erase p, freedProcs := s.freedProcs.erase p }

def kfreeThread (s : System) (t : Ptr) : System :=
  { s with thrds := s.thrds.erase t, freedThrds := t :: s.freedThrds }

def kfreeProc (s : System) (p : Ptr) : System :=
  { s with procs := s.procs.erase p, freedProcs := p :: s.freedProcs }

/-- `kalloc_pages(n)`: the address and the state after. -/
def kallocPages (s : System) (n : Nat) : Nat × System :=
  (s.largeAllocBase, { s with largeAllocBase := s.largeAllocBase + n * PAGE_SIZE })

/-! ## `kthread.c` -/

/-- `kthread_create`, with the address `t` that `kmalloc` returns. -/
def kthreadCreate (s : System) (t : Ptr) (stackSize : Nat) : System :=
  let s := kmallocThread s t
  let (base, s) := kallocPages s ((stackSize + PAGE_SIZE - 1) / PAGE_SIZE)
  setThread s t fun _ =>
    { esp := .kernel, stackBase := base, stackSize, state := .ready, process := 0, next := 0 }

/-- `while (tail->next != thread_list_head) tail = tail->next`; a `NULL` on the
way is a page fault. -/
def ringTail (s : System) : Option Ptr :=
  (walkWhile (fun t => (s.thread t).next)
    (fun t => t != 0 && (s.thread t).next != s.threadListHead) (2 ^ 32) s.threadListHead).filter
    (· ≠ 0)

def schedulerAdd (s : System) (t : Ptr) : Option System :=
  if s.threadListHead = 0 then
    some (setThread { s with threadListHead := t } t fun r => { r with next := t })
  else
    (ringTail s).map fun tail =>
      setThread (setThread s tail fun r => { r with next := t }) t
        fun r => { r with next := s.threadListHead }

/-- The loop of `scheduler_next`. -/
def schedulerNextLoop (s : System) (start : Ptr) : Nat → Ptr → Option Ptr
  | 0, _ => none
  | n + 1, t =>
    if t = 0 then none
    else if (s.thread t).state ≠ .ready ∧ (s.thread t).state ≠ .running then
      let t := (s.thread t).next
      if t = start then some s.idleThread else schedulerNextLoop s start n t
    else some t

def schedulerNext (s : System) : Option Ptr :=
  if s.currThread = 0 then some s.idleThread
  else
    let t := (s.thread s.currThread).next
    schedulerNextLoop s t (2 ^ 32) t

/-- `next->process ? next->process->page_dir : NULL` -/
def pageDirOf (s : System) (t : Ptr) : Nat :=
  if (s.thread t).process ≠ 0 then (s.proc (s.thread t).process).pageDir else 0

/-- `scheduler_switch` from `old` to another thread `next`. -/
def switchTo (s : System) (old next : Ptr) : System :=
  let s := setThread s old fun r => { r with state := .ready }
  let s := setThread s next fun r => { r with state := .running }
  { s with
    currThread := next
    currProcess := (s.thread next).process
    tssEsp0 := (s.thread next).stackBase + (s.thread next).stackSize
    cr3 :=
      if pageDirOf s next ≠ 0 then pageDirOf s next
      else if pageDirOf s old ≠ 0 then s.kernelPdPhys
      else s.cr3
    running := (s.thread next).esp }

/-- `scheduler_switch`, with the thread it picks. -/
def schedulerSwitch (s : System) : Option (Ptr × System) :=
  let s := setThread s s.currThread fun r => { r with esp := s.running }
  (schedulerNext s).map fun next =>
    if next = s.currThread then (next, s) else (next, switchTo s s.currThread next)

/-! ## `uprocess.c` -/

def processListAdd (s : System) (p : Ptr) : System :=
  { setProc s p (fun r => { r with next := s.processList }) with processList := p }

/-- The first listed process with this pid, or `NULL`. -/
def uprocessFind (s : System) (pid : Nat) : Option Ptr :=
  walkWhile (fun p => (s.proc p).next) (fun p => p != 0 && (s.proc p).pid != pid) (2 ^ 32)
    s.processList

/-- The loop of `uprocess_remove`: `p` is what `*proc` holds, and `prev` the
process whose `next` that is, or `NULL` for `process_list`. -/
def uprocessRemoveLoop (s : System) (pid : Nat) : Nat → Ptr → Ptr → Option System
  | 0, _, _ => none
  | n + 1, prev, p =>
    if p = 0 then some s
    else if (s.proc p).pid = pid then
      if prev = 0 then some { s with processList := (s.proc p).next }
      else some (setProc s prev fun r => { r with next := (s.proc p).next })
    else uprocessRemoveLoop s pid n p (s.proc p).next

def uprocessRemove (s : System) (pid : Nat) : Option System :=
  uprocessRemoveLoop s pid (2 ^ 32) 0 s.processList

/-- `uprocess_create`, with the addresses `p` and `t` that `kmalloc` returns. -/
def uprocessCreate (s : System) (p t : Ptr) (pageDir : Nat) : System :=
  let s := kmallocProc s p
  let pid := s.nextPid
  let s := kmallocThread { s with nextPid := (s.nextPid + 1) % 2 ^ 32 } t
  let (base, s) := kallocPages s (KSTACK_SIZE / PAGE_SIZE)
  let s := setThread s t fun _ =>
    { esp := .user, stackBase := base, stackSize := KSTACK_SIZE, state := .ready, process := p
      next := 0 }
  let s := setProc s p fun r =>
    { pid, pageDir, thread := t, state := .running, parent := 0, next := r.next, exitCode := 0 }
  processListAdd s p

end FrogKernel.Process
