import FrogKernel.Userspace.Processes

/-!
# Which records the machine can reach

A record is known when it is allocated or was freed and its memory has not been
handed out again.  `Closed` says that every pointer the process system follows
leads to a known record.

A step is `Quiet` when of the known records it changes states and exit codes
only, and goes on with the same thread.  All handlers are, except `sys_spawn`
and the step of `sys_wait` that takes the child off the list.
-/

namespace FrogKernel.Process

open FrogKernel.DList FrogKernel.Tty FrogKernel.Runs

def knownThrds (s : System) : List Ptr := s.thrds ++ s.freedThrds
def knownProcs (s : System) : List Ptr := s.procs ++ s.freedProcs

/-- No buffer and no record of the step lies in memory that was freed. -/
def NoReuse (s : System) : Event → Prop
  | .spawn _ _ p t reused =>
    ∀ x, x = p ∨ x = t ∨ x ∈ reused → x ∉ s.freedThrds ∧ x ∉ s.freedProcs
  | .spawnFailed reused => ∀ x ∈ reused, x ∉ s.freedThrds ∧ x ∉ s.freedProcs
  | _ => True

/-- Where thread `t` goes on: what runs now, or what it saved. -/
def ctx (s : System) (t : Ptr) : Cont := if t = s.currThread then s.running else (s.thread t).esp

/-- The call of `sys_wait` a context is in. -/
def Cont.call? : Cont → Option WaitCall
  | .waitLoop w => some w
  | .waitTail w _ _ => some w
  | _ => none

def NullOr (p : Ptr) (l : List Ptr) : Prop := p = 0 ∨ p ∈ l

structure Closed (s : System) : Prop where
  thrds_pos : 0 ∉ knownThrds s
  procs_pos : 0 ∉ knownProcs s
  head : s.threadListHead ∈ knownThrds s
  idle : s.idleThread ∈ knownThrds s
  curr : s.currThread ∈ knownThrds s
  next : ∀ t ∈ knownThrds s, (s.thread t).next ∈ knownThrds s
  process : ∀ t ∈ knownThrds s, NullOr (s.thread t).process (knownProcs s)
  currProcess : s.currProcess = (s.thread s.currThread).process
  list : NullOr s.processList (knownProcs s)
  listNext : ∀ p ∈ knownProcs s, NullOr (s.proc p).next (knownProcs s)
  parent : ∀ p ∈ knownProcs s, NullOr (s.proc p).parent (knownProcs s)
  thread : ∀ p ∈ knownProcs s, (s.proc p).thread ∈ knownThrds s
  child : ∀ t ∈ knownThrds s, ∀ w, (ctx s t).call? = some w → w.child ∈ knownProcs s

/-- Of the known records only states, exit codes and saved contexts differ. -/
structure SameLinks (s s' : System) : Prop where
  thrds : ∀ t, t ∈ knownThrds s' ↔ t ∈ knownThrds s
  procs : ∀ p, p ∈ knownProcs s' ↔ p ∈ knownProcs s
  head : s'.threadListHead = s.threadListHead
  idle : s'.idleThread = s.idleThread
  list : s'.processList = s.processList
  next : ∀ t ∈ knownThrds s, (s'.thread t).next = (s.thread t).next
  process : ∀ t ∈ knownThrds s, (s'.thread t).process = (s.thread t).process
  listNext : ∀ p ∈ knownProcs s, (s'.proc p).next = (s.proc p).next
  parent : ∀ p ∈ knownProcs s, (s'.proc p).parent = (s.proc p).parent
  pid : ∀ p ∈ knownProcs s, (s'.proc p).pid = (s.proc p).pid
  thread : ∀ p ∈ knownProcs s, (s'.proc p).thread = (s.proc p).thread

/-- And the same thread runs on in the same address space, while the others
keep their contexts. -/
structure Quiet (s s' : System) : Prop extends SameLinks s s' where
  esp : ∀ t ∈ knownThrds s, (s'.thread t).esp = (s.thread t).esp
  stack : ∀ t ∈ knownThrds s, (s'.thread t).stackBase = (s.thread t).stackBase ∧
    (s'.thread t).stackSize = (s.thread t).stackSize
  pageDir : ∀ p ∈ knownProcs s, (s'.proc p).pageDir = (s.proc p).pageDir
  currThread : s'.currThread = s.currThread
  currProcess : s'.currProcess = s.currProcess
  loaded : s'.cr3 = s.cr3 ∧ s'.kernelPdPhys = s.kernelPdPhys ∧ s'.tssEsp0 = s.tssEsp0

theorem Closed.of_sameLinks {s s' : System} (h : Closed s) (hl : SameLinks s s')
    (hcurr : s'.currThread ∈ knownThrds s)
    (hproc : s'.currProcess = (s'.thread s'.currThread).process)
    (hchild : ∀ t ∈ knownThrds s, ∀ w, (ctx s' t).call? = some w → w.child ∈ knownProcs s) :
    Closed s' := by
  have hnull : ∀ {p}, NullOr p (knownProcs s) → NullOr p (knownProcs s') :=
    fun hp => hp.imp_right (hl.procs _).mpr
  constructor
  · exact fun h0 => h.thrds_pos ((hl.thrds 0).mp h0)
  · exact fun h0 => h.procs_pos ((hl.procs 0).mp h0)
  · rw [hl.thrds, hl.head]
    exact h.head
  · rw [hl.thrds, hl.idle]
    exact h.idle
  · rwa [hl.thrds]
  · intro t ht
    have ht := (hl.thrds t).mp ht
    rw [hl.thrds, hl.next t ht]
    exact h.next t ht
  · intro t ht
    have ht := (hl.thrds t).mp ht
    rw [hl.process t ht]
    exact hnull (h.process t ht)
  · exact hproc
  · rw [hl.list]
    exact hnull h.list
  · intro p hp
    have hp := (hl.procs p).mp hp
    rw [hl.listNext p hp]
    exact hnull (h.listNext p hp)
  · intro p hp
    have hp := (hl.procs p).mp hp
    rw [hl.parent p hp]
    exact hnull (h.parent p hp)
  · intro p hp
    have hp := (hl.procs p).mp hp
    rw [hl.thrds, hl.thread p hp]
    exact h.thread p hp
  · intro t ht w hw
    exact (hl.procs _).mpr (hchild t ((hl.thrds t).mp ht) w hw)

theorem ctx_of_ne {s : System} {t : Ptr} (ht : t ≠ s.currThread) : ctx s t = (s.thread t).esp :=
  if_neg ht

@[simp] theorem ctx_curr (s : System) : ctx s s.currThread = s.running := if_pos rfl

/-- A quiet step changes the context of the running thread only. -/
theorem Quiet.ctx_eq {s s' : System} (hq : Quiet s s') {t : Ptr} (ht : t ∈ knownThrds s) :
    ctx s' t = if t = s.currThread then s'.running else ctx s t := by
  unfold ctx
  rw [hq.currThread]
  split
  · rfl
  · exact hq.esp t ht

theorem Closed.of_quiet {s s' : System} (h : Closed s) (hq : Quiet s s')
    (hrun : ∀ w, s'.running.call? = some w → w.child ∈ knownProcs s) : Closed s' := by
  refine h.of_sameLinks hq.toSameLinks ?_ ?_ ?_
  · rw [hq.currThread]
    exact h.curr
  · rw [hq.currThread, hq.currProcess, hq.process _ h.curr]
    exact h.currProcess
  · intro t ht w hw
    rw [hq.ctx_eq ht] at hw
    split at hw
    · exact hrun w hw
    · exact h.child t ht w hw

/-! ## The quiet steps -/

theorem Quiet.of_fields {s s' : System} (hkt : knownThrds s' = knownThrds s)
    (hkp : knownProcs s' = knownProcs s)
    (hglobals : s'.threadListHead = s.threadListHead ∧ s'.idleThread = s.idleThread ∧
      s'.processList = s.processList ∧ s'.currThread = s.currThread ∧
      s'.currProcess = s.currProcess)
    (hloaded : s'.cr3 = s.cr3 ∧ s'.kernelPdPhys = s.kernelPdPhys ∧ s'.tssEsp0 = s.tssEsp0)
    (hthread : ∀ t ∈ knownThrds s, s'.thread t = { s.thread t with state := (s'.thread t).state })
    (hproc : ∀ p ∈ knownProcs s, s'.proc p =
      { s.proc p with state := (s'.proc p).state, exitCode := (s'.proc p).exitCode }) :
    Quiet s s' := by
  obtain ⟨hhead, hidle, hlist, hct, hcp⟩ := hglobals
  exact
    { thrds := fun t => by rw [hkt]
      procs := fun p => by rw [hkp]
      head := hhead
      idle := hidle
      list := hlist
      next := fun t ht => by rw [hthread t ht]
      process := fun t ht => by rw [hthread t ht]
      listNext := fun p hp => by rw [hproc p hp]
      parent := fun p hp => by rw [hproc p hp]
      pid := fun p hp => by rw [hproc p hp]
      thread := fun p hp => by rw [hproc p hp]
      esp := fun t ht => by rw [hthread t ht]
      stack := fun t ht => by rw [hthread t ht]; exact ⟨rfl, rfl⟩
      pageDir := fun p hp => by rw [hproc p hp]
      currThread := hct
      currProcess := hcp
      loaded := hloaded }

theorem Quiet.refl (s : System) : Quiet s s :=
  Quiet.of_fields rfl rfl ⟨rfl, rfl, rfl, rfl, rfl⟩ ⟨rfl, rfl, rfl⟩ (fun _ _ => rfl) fun _ _ => rfl

theorem SameLinks.trans {s s' s'' : System} (h : SameLinks s s') (h' : SameLinks s' s'') :
    SameLinks s s'' := by
  have ht : ∀ {t}, t ∈ knownThrds s → t ∈ knownThrds s' := (h.thrds _).mpr
  have hp : ∀ {p}, p ∈ knownProcs s → p ∈ knownProcs s' := (h.procs _).mpr
  constructor
  · exact fun t => (h'.thrds t).trans (h.thrds t)
  · exact fun p => (h'.procs p).trans (h.procs p)
  · exact h'.head.trans h.head
  · exact h'.idle.trans h.idle
  · exact h'.list.trans h.list
  · exact fun t hk => (h'.next t (ht hk)).trans (h.next t hk)
  · exact fun t hk => (h'.process t (ht hk)).trans (h.process t hk)
  · exact fun p hk => (h'.listNext p (hp hk)).trans (h.listNext p hk)
  · exact fun p hk => (h'.parent p (hp hk)).trans (h.parent p hk)
  · exact fun p hk => (h'.pid p (hp hk)).trans (h.pid p hk)
  · exact fun p hk => (h'.thread p (hp hk)).trans (h.thread p hk)

theorem Quiet.trans {s s' s'' : System} (h : Quiet s s') (h' : Quiet s' s'') : Quiet s s'' :=
  { h.toSameLinks.trans h'.toSameLinks with
    esp := fun t ht => (h'.esp t ((h.thrds t).mpr ht)).trans (h.esp t ht)
    stack := fun t ht => by
      rw [(h'.stack t ((h.thrds t).mpr ht)).1, (h'.stack t ((h.thrds t).mpr ht)).2]
      exact h.stack t ht
    pageDir := fun p hp => (h'.pageDir p ((h.procs p).mpr hp)).trans (h.pageDir p hp)
    currThread := h'.currThread.trans h.currThread
    currProcess := h'.currProcess.trans h.currProcess
    loaded := by
      rw [h'.loaded.1, h'.loaded.2.1, h'.loaded.2.2]
      exact h.loaded }

theorem setThread_thread (s : System) (t x : Ptr) (f : ThreadT → ThreadT) :
    (setThread s t f).thread x = if x = t then f (s.thread t) else s.thread x :=
  Function.update_apply ..

theorem setProc_proc (s : System) (p x : Ptr) (f : ProcessT → ProcessT) :
    (setProc s p f).proc x = if x = p then f (s.proc p) else s.proc x :=
  Function.update_apply ..

@[simp] theorem setThread_proc (s : System) (t : Ptr) (f : ThreadT → ThreadT) :
    (setThread s t f).proc = s.proc := rfl

@[simp] theorem setProc_thread (s : System) (p : Ptr) (f : ProcessT → ProcessT) :
    (setProc s p f).thread = s.thread := rfl

theorem setState_thread (s : System) (t : Ptr) (v : ThreadState) (x : Ptr) :
    (setThread s t fun r => { r with state := v }).thread x =
      { s.thread x with state := if x = t then v else (s.thread x).state } := by
  rw [setThread_thread]
  split
  case isTrue hx => rw [hx]
  case isFalse => rfl

/-- An assignment to `t->state`. -/
theorem quiet_threadState (s : System) (t : Ptr) (v : ThreadState) :
    Quiet s (setThread s t fun r => { r with state := v }) := by
  refine Quiet.of_fields rfl rfl ⟨rfl, rfl, rfl, rfl, rfl⟩ ⟨rfl, rfl, rfl⟩ (fun x _ => ?_)
    fun _ _ => rfl
  rw [setThread_thread]
  split
  case isTrue hx => rw [hx]
  case isFalse => rfl

/-- Assignments to `p->state` and `p->exit_code`. -/
theorem quiet_procState (s : System) (p : Ptr) (f : ProcessT → ProcessT)
    (hf : ∀ r, f r = { r with state := (f r).state, exitCode := (f r).exitCode }) :
    Quiet s (setProc s p f) := by
  refine Quiet.of_fields rfl rfl ⟨rfl, rfl, rfl, rfl, rfl⟩ ⟨rfl, rfl, rfl⟩ (fun _ _ => rfl)
    fun x _ => ?_
  rw [setProc_proc]
  split
  case isTrue hx => rw [hx, ← hf]
  case isFalse => rfl

/-- Nothing of the records changes. -/
theorem quiet_globals (s : System) (pending inIrq : Bool) (running : Cont) (tty : TtyT) :
    Quiet s { s with
      schedulePending := pending, inIrq := inIrq, running := running, tty := tty } :=
  Quiet.of_fields rfl rfl ⟨rfl, rfl, rfl, rfl, rfl⟩ ⟨rfl, rfl, rfl⟩ (fun _ _ => rfl) fun _ _ => rfl

theorem overwrite_known {s : System} {reused : List Ptr} (mt : Ptr → ThreadT) (mp : Ptr → ProcessT)
    (hfree : Unallocated s reused) (hreuse : ∀ x ∈ reused, x ∉ s.freedThrds ∧ x ∉ s.freedProcs) :
    (∀ t ∈ knownThrds s, (overwrite s reused mt mp).thread t = s.thread t) ∧
      ∀ p ∈ knownProcs s, (overwrite s reused mt mp).proc p = s.proc p := by
  constructor
  · intro t ht
    refine if_neg fun hover => ?_
    rcases List.mem_append.mp ht with ht | ht
    · exact (hfree t hover).1 ht
    · exact (hreuse t hover).1 ht
  · intro p hp
    refine if_neg fun hover => ?_
    rcases List.mem_append.mp hp with hp | hp
    · exact (hfree p hover).2 hp
    · exact (hreuse p hover).2 hp

theorem quiet_overwrite {s : System} {reused : List Ptr} {mt : Ptr → ThreadT} {mp : Ptr → ProcessT}
    (hfree : Unallocated s reused) (hreuse : ∀ x ∈ reused, x ∉ s.freedThrds ∧ x ∉ s.freedProcs) :
    Quiet s (overwrite s reused mt mp) := by
  obtain ⟨ht, hp⟩ := overwrite_known mt mp hfree hreuse
  refine Quiet.of_fields rfl rfl ⟨rfl, rfl, rfl, rfl, rfl⟩ ⟨rfl, rfl, rfl⟩ (fun t hk => ?_)
    fun p hk => ?_
  · rw [ht t hk]
  · rw [hp p hk]

theorem quiet_sysExit (s : System) (code : Nat) : Quiet s (sysExit s code) := by
  have h1 := quiet_procState s s.currProcess (fun r => { r with exitCode := code })
    fun _ => rfl
  have h2 := h1.trans (quiet_procState _ s.currProcess (fun r => { r with state := .dead })
    fun _ => rfl)
  have h3 := h2.trans (quiet_threadState _ s.currThread .dead)
  unfold sysExit
  dsimp only
  split
  · exact ((h3.trans (quiet_procState _ _ (fun r => { r with state := .running })
      fun _ => rfl)).trans (quiet_threadState _ _ .ready)).trans
        (quiet_globals _ _ _ _ _)
  · exact h3.trans (quiet_globals _ _ _ _ _)

theorem quiet_ttyReadLoop (s : System) (len : Nat) : Quiet s (ttyReadLoop s len) := by
  unfold ttyReadLoop
  split
  · exact (quiet_threadState s s.currThread .blocked).trans (quiet_globals _ _ _ _ _)
  · exact quiet_globals s _ _ _ _

theorem quiet_irqHandler (s : System) (src : Irq) : Quiet s (irqHandler s src) := by
  cases src with
  | timer due =>
    rw [irqHandler]
    split
    · exact quiet_globals s _ _ _ _
    · exact Quiet.refl s
  | keyboard c =>
    simp only [irqHandler]
    split
    · exact ((quiet_globals s _ _ _ _).trans (quiet_threadState _ s.currThread .ready)).trans
        (quiet_globals _ _ _ _ _)
    · exact quiet_globals s _ _ _ _
  | other => exact Quiet.refl s

theorem quiet_waitBlock (s : System) (w : WaitCall) : Quiet s (waitBlock s w) :=
  ((quiet_procState s s.currProcess (fun r => { r with state := .waiting })
    fun _ => rfl).trans (quiet_threadState _ _ .blocked)).trans
      (quiet_globals _ _ _ _ _)

/-! ## `sys_exit` -/

/-- `sys_exit` up to its wake-up. -/
def exitSelf (s : System) (code : Nat) : System :=
  setThread (setProc (setProc s s.currProcess fun r => { r with exitCode := code }) s.currProcess
    fun r => { r with state := .dead }) s.currThread fun r => { r with state := .dead }

/-- The process that `sys_exit` tests. -/
def exitParent (s : System) : Ptr := (s.proc s.currProcess).parent

/-- `sys_exit` finds its parent waiting. -/
def FindsWaiting (s : System) : Prop :=
  exitParent s ≠ 0 ∧ exitParent s ≠ s.currProcess ∧ (s.proc (exitParent s)).state = .waiting

instance (s : System) : Decidable (FindsWaiting s) := inferInstanceAs (Decidable (_ ∧ _ ∧ _))

theorem exitSelf_proc (s : System) (code : Nat) (x : Ptr) : (exitSelf s code).proc x =
    if x = s.currProcess then { s.proc x with exitCode := code, state := .dead } else s.proc x := by
  simp only [exitSelf, setThread_proc, setProc_proc, if_true]
  split
  case isTrue hx => rw [hx]
  case isFalse => rfl

theorem exitSelf_thread (s : System) (code : Nat) (x : Ptr) : (exitSelf s code).thread x =
    if x = s.currThread then { s.thread x with state := .dead } else s.thread x := by
  simp only [exitSelf, setThread_thread, setProc_thread]
  split
  case isTrue hx => rw [hx]
  case isFalse => rfl

theorem exitSelf_waiting (s : System) (code : Nat) :
    exitParent s ≠ 0 ∧ ((exitSelf s code).proc (exitParent s)).state = .waiting ↔ FindsWaiting s := by
  rw [exitSelf_proc, FindsWaiting]
  split
  case isTrue hself => simp [hself]
  case isFalse hself => simp [hself]

theorem sysExit_eq (s : System) (code : Nat) : sysExit s code =
    { (if FindsWaiting s then
        setThread (setProc (exitSelf s code) (exitParent s) fun r => { r with state := .running })
          ((exitSelf s code).proc (exitParent s)).thread fun r => { r with state := .ready }
      else exitSelf s code) with schedulePending := true, running := .exitLoop } := by
  have hparent : ((exitSelf s code).proc s.currProcess).parent = exitParent s := by
    rw [exitSelf_proc, if_pos rfl]
    rfl
  have hthread : ((setProc (exitSelf s code) (exitParent s) fun r => { r with state := .running }).proc
      (exitParent s)).thread = ((exitSelf s code).proc (exitParent s)).thread := by
    rw [setProc_proc, if_pos rfl]
  simp only [← exitSelf_waiting s code, ← hthread]
  rw [← hparent]
  rfl

theorem sysExit_proc (s : System) (code : Nat) (x : Ptr) : (sysExit s code).proc x =
    if x = s.currProcess then { s.proc x with exitCode := code, state := .dead }
    else if FindsWaiting s ∧ x = exitParent s then { s.proc x with state := .running }
    else s.proc x := by
  rw [sysExit_eq]
  by_cases hw : FindsWaiting s
  · have hne : exitParent s ≠ s.currProcess := hw.2.1
    rw [if_pos hw]
    simp only [setThread_proc, setProc_proc, exitSelf_proc, if_neg hne, hw, true_and]
    by_cases hx : x = exitParent s
    · rw [if_pos hx, if_pos hx, hx, if_neg hne]
    · rw [if_neg hx, if_neg hx]
  · rw [if_neg hw]
    simp only [exitSelf_proc, hw, false_and, if_false]

theorem sysExit_thread (s : System) (code : Nat) (x : Ptr) : (sysExit s code).thread x =
    if FindsWaiting s ∧ x = (s.proc (exitParent s)).thread then { s.thread x with state := .ready }
    else if x = s.currThread then { s.thread x with state := .dead }
    else s.thread x := by
  rw [sysExit_eq]
  by_cases hw : FindsWaiting s
  · have hne : exitParent s ≠ s.currProcess := hw.2.1
    rw [if_pos hw]
    simp only [setThread_thread, setProc_thread, exitSelf_proc, exitSelf_thread, if_neg hne, hw,
      true_and]
    by_cases hx : x = (s.proc (exitParent s)).thread
    · rw [if_pos hx, if_pos hx, ← hx]
      split <;> rfl
    · rw [if_neg hx, if_neg hx]
  · rw [if_neg hw]
    simp only [exitSelf_thread, hw, false_and, if_false]

/-! ## `sys_wait` -/

/-- `uprocess_find` follows the list. -/
theorem uprocessFind_some {s : System} (h : Closed s) {pid : Nat} {p : Ptr}
    (hfind : uprocessFind s pid = some p) (hp : p ≠ 0) :
    p ∈ knownProcs s ∧ (s.proc p).pid = pid := by
  have hwalk := walkWhile_some (P := fun p => NullOr p (knownProcs s)) (fun x hx hcont => by
    rcases hx with rfl | hx
    · simp at hcont
    · exact h.listNext x hx) h.list hfind
  have hcont : (p != 0 && (s.proc p).pid != pid) = false := hwalk.2
  refine ⟨hwalk.1.resolve_left hp, ?_⟩
  simpa [hp] using hcont

/-- What `sys_wait` did when it goes on. -/
structure Awaits (s : System) (pid : Nat) (w : WaitCall) : Prop where
  child : w.child ≠ 0
  find : uprocessFind s pid = some w.child
  parent : (s.proc w.child).parent = s.currProcess
  childPid : w.childPid = pid
  stored : w.stored = none

theorem sysWait_some {s s' : System} {pid : Nat} {exitCode : Ptr}
    (hwait : sysWait s pid exitCode = some s') :
    s' = s ∨ ∃ w, Awaits s pid w ∧
      ((s.proc w.child).state ≠ .dead ∧ s' = waitBlock s w ∨
        (s.proc w.child).state = .dead ∧ s' = { s with running := .waitTail w .store false }) := by
  unfold sysWait at hwait
  split at hwait
  · exact Or.inl (Option.some.inj hwait).symm
  · obtain ⟨child, hfind, hs'⟩ := Option.map_eq_some_iff.mp hwait
    split at hs'
    · exact Or.inl hs'.symm
    case isFalse hchild =>
    split at hs'
    · exact Or.inl hs'.symm
    case isFalse hparent =>
    have hawaits : Awaits s pid { childPid := pid, exitCode, child, stored := none } :=
      ⟨hchild, hfind, not_not.mp hparent, rfl, rfl⟩
    split at hs'
    case isTrue hstate => exact Or.inr ⟨_, hawaits, Or.inl ⟨hstate, hs'.symm⟩⟩
    case isFalse hstate => exact Or.inr ⟨_, hawaits, Or.inr ⟨not_not.mp hstate, hs'.symm⟩⟩

theorem quiet_sysWait {s s' : System} {pid : Nat} {exitCode : Ptr}
    (hwait : sysWait s pid exitCode = some s') : Quiet s s' := by
  rcases sysWait_some hwait with rfl | ⟨w, -, ⟨-, rfl⟩ | ⟨-, rfl⟩⟩
  · exact Quiet.refl _
  · exact quiet_waitBlock s w
  · exact quiet_globals s _ _ _ _

theorem mem_erase_append_cons {l l' : List Ptr} {a : Ptr} (ha : a ∈ l ++ l') (x : Ptr) :
    x ∈ l.erase a ++ a :: l' ↔ x ∈ l ++ l' := by
  by_cases hx : x = a
  · subst hx
    simpa using ha
  · simp [List.mem_erase_of_ne hx, hx]

/-- Passing a known record to `kfree` leaves it known. -/
theorem quiet_kfreeThread {s : System} {t : Ptr} (ht : t ∈ knownThrds s) :
    Quiet s (kfreeThread s t) :=
  { Quiet.refl s with thrds := mem_erase_append_cons ht }

theorem quiet_kfreeProc {s : System} {p : Ptr} (hp : p ∈ knownProcs s) :
    Quiet s (kfreeProc s p) :=
  { Quiet.refl s with procs := mem_erase_append_cons hp }

theorem quiet_waitStatement {s s' : System} (h : Closed s) {w : WaitCall} {stmt : WaitStmt}
    {sti : Bool} (hrun : s.running = .waitTail w stmt sti) (hstmt : stmt ≠ .remove)
    (hstep : waitStatement s w sti stmt = some s') : Quiet s s' := by
  have hchild : w.child ∈ knownProcs s := h.child s.currThread h.curr w (by rw [ctx_curr, hrun]; rfl)
  cases stmt with
  | remove => exact absurd rfl hstmt
  | freeThread =>
    obtain rfl := Option.some.inj hstep
    exact (quiet_kfreeThread (h.thread _ hchild)).trans (quiet_globals _ _ _ _ _)
  | freeProcess =>
    obtain rfl := Option.some.inj hstep
    exact (quiet_kfreeProc hchild).trans (quiet_globals _ _ _ _ _)
  | store | freeStack | ret =>
    obtain rfl := Option.some.inj hstep
    exact quiet_globals s _ _ _ _

/-! ## `uprocess_remove` -/

/-- `uprocess_remove` changes one link of the list: to what followed the
removed process. -/
theorem uprocessRemoveLoop_some {s s' : System} {pid : Nat} (h : Closed s) :
    ∀ {n : Nat} {prev p : Ptr}, NullOr prev (knownProcs s) → NullOr p (knownProcs s) →
      uprocessRemoveLoop s pid n prev p = some s' →
      s' = s ∨ ∃ prev p, NullOr prev (knownProcs s) ∧ p ∈ knownProcs s ∧ (s.proc p).pid = pid ∧
        s' = if prev = 0 then { s with processList := (s.proc p).next }
          else setProc s prev fun r => { r with next := (s.proc p).next }
  | 0, _, _, _, _, hloop => by simp [uprocessRemoveLoop] at hloop
  | n + 1, prev, p, hprev, hp, hloop => by
    unfold uprocessRemoveLoop at hloop
    split at hloop
    · exact Or.inl (Option.some.inj hloop).symm
    case isFalse hp0 =>
      have hp := hp.resolve_left hp0
      split at hloop
      case isTrue hpid =>
        refine Or.inr ⟨prev, p, hprev, hp, hpid, ?_⟩
        split at hloop
        case isTrue h0 => rw [if_pos h0, Option.some.inj hloop]
        case isFalse h0 => rw [if_neg h0, Option.some.inj hloop]
      case isFalse =>
        exact uprocessRemoveLoop_some h (Or.inr hp) (h.listNext p hp) hloop

theorem closed_setNext {s : System} (h : Closed s) {prev q : Ptr} (hq : NullOr q (knownProcs s)) :
    Closed (setProc s prev fun r => { r with next := q }) := by
  have hsame : ∀ x, ((setProc s prev fun r => { r with next := q }).proc x).parent =
      (s.proc x).parent ∧
      ((setProc s prev fun r => { r with next := q }).proc x).thread = (s.proc x).thread := by
    intro x
    rw [setProc_proc]
    split
    case isTrue hx => exact hx ▸ ⟨rfl, rfl⟩
    case isFalse => exact ⟨rfl, rfl⟩
  refine { h with listNext := fun p hp => ?_, parent := fun p hp => ?_, thread := fun p hp => ?_ }
  · rw [setProc_proc]
    split
    · exact hq
    · exact h.listNext p hp
  · rw [(hsame p).1]
    exact h.parent p hp
  · rw [(hsame p).2]
    exact h.thread p hp

theorem closed_running {s : System} (h : Closed s) {c : Cont}
    (hc : ∀ w, c.call? = some w → w.child ∈ knownProcs s) : Closed { s with running := c } :=
  h.of_quiet (quiet_globals s _ _ _ _) hc

theorem closed_remove {s s' : System} (h : Closed s) {w : WaitCall} {sti : Bool}
    (hrun : s.running = .waitTail w .remove sti)
    (hstep : waitStatement s w sti .remove = some s') : Closed s' := by
  have hchild : w.child ∈ knownProcs s := h.child s.currThread h.curr w (by rw [ctx_curr, hrun]; rfl)
  obtain ⟨s1, hremove, rfl⟩ := Option.map_eq_some_iff.mp hstep
  have hcall : ∀ w', (Cont.waitTail w .freeStack sti).call? = some w' → w'.child ∈ knownProcs s := by
    rintro w' hw
    obtain rfl := Option.some.inj hw
    exact hchild
  rcases uprocessRemoveLoop_some h (Or.inl rfl) h.list hremove with rfl | ⟨prev, p, hprev, hp, -, rfl⟩
  · exact closed_running h hcall
  · split
    · exact closed_running (s := { s with processList := (s.proc p).next })
        { h with list := h.listNext p hp } hcall
    · exact closed_running (closed_setNext h (h.listNext p hp)) hcall

end FrogKernel.Process
