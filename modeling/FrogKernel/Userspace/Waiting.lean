import FrogKernel.Userspace.Sleeping

/-!
# What `sys_wait` returns

`sys_exit` wakes its parent by setting the parent's process to
`PROCESS_RUNNING`, and the loop of `sys_wait` looks at nothing else.
`waits_right`: as long as only the awaited child wakes a waiting parent, a
`sys_wait` that returns 0 has seen that child exit and stores its exit code.
-/

namespace FrogKernel.Process

open FrogKernel.Runs FrogKernel.Tty

/-! ## What a history says -/

/-- A `sys_wait` that returned 0 did so for a child of the caller that had
exited, with the code of that exit or without storing one. -/
def WaitsRight (es : List Event) : Prop :=
  ∀ past caller pid stored rest, es = past ++ .waitReturn caller pid stored :: rest →
    ∃ before p t reused code woken after, past = before ++ .exit t pid code woken :: after ∧
      .spawn caller pid p t reused ∈ before ∧ (stored = none ∨ stored = some code)

/-- An exit finds no parent that waits for another child. -/
def WakesAwaited (s : System) : Event → Prop
  | .exit _ _ _ _ => FindsWaiting s →
    ∀ w, ctx s (s.proc (exitParent s)).thread = .waitLoop w → w.child = s.currProcess
  | _ => True

/-- The condition of `waits_right` on a step. -/
def SingleWake (s : System) (e : Event) : Prop := NoReuse s e ∧ WakesAwaited s e

/-- Process `p` was spawned by its parent. -/
def Born (es : List Event) (s : System) (p : Ptr) : Prop :=
  ∃ reused, .spawn (s.proc (s.proc p).parent).pid (s.proc p).pid p (s.proc p).thread reused ∈ es

/-- Process `p` exited with the code it holds, after it was spawned. -/
def Ended (es : List Event) (s : System) (p : Ptr) : Prop :=
  ∃ before woken after,
    es = before ++ .exit (s.proc p).thread (s.proc p).pid (s.proc p).exitCode woken :: after ∧
      ((s.proc p).parent ≠ 0 → Born before s p)

theorem WaitsRight.snoc {es : List Event} {e : Event} (h : WaitsRight es)
    (he : ∀ caller pid stored, e = .waitReturn caller pid stored →
      ∃ before p t reused code woken after, es = before ++ .exit t pid code woken :: after ∧
        .spawn caller pid p t reused ∈ before ∧ (stored = none ∨ stored = some code)) :
    WaitsRight (es ++ [e]) := by
  intro past caller pid stored rest heq
  rcases snoc_eq heq with ⟨-, rfl, rfl⟩ | ⟨rest', -, rfl⟩
  · exact he caller pid stored rfl
  · exact h past caller pid stored rest' rfl

theorem Born.append {es es' : List Event} {s : System} {p : Ptr} (h : Born es s p) :
    Born (es ++ es') s p :=
  h.imp fun _ hmem => List.mem_append_left _ hmem

theorem Ended.append {es es' : List Event} {s : System} {p : Ptr} (h : Ended es s p) :
    Ended (es ++ es') s p := by
  obtain ⟨before, woken, after, rfl, hborn⟩ := h
  exact ⟨before, woken, after ++ es', by simp, hborn⟩

/-! ## The invariant -/

/-- A context of process `q`: what `sys_wait` knows in it. -/
structure CallRight (s : System) (q : Ptr) (c : Cont) : Prop where
  awaited : ∀ w, c.call? = some w →
    (s.proc w.child).parent = q ∧ (s.proc w.child).pid = w.childPid
  loop : ∀ w, c = .waitLoop w → w.stored = none ∧
    ((s.proc q).state = .waiting ∨ (s.proc w.child).state = .dead)
  tail : ∀ w stmt sti, c = .waitTail w stmt sti → (s.proc w.child).state = .dead ∧
    (w.stored = none ∨ w.stored = some (s.proc w.child).exitCode)

structure WaitInv (past : List Event) (s : System) : Prop where
  closed : Closed s
  waits : WaitsRight past
  owner : ∀ t ∈ knownThrds s, (s.thread t).process ≠ 0 → (s.proc (s.thread t).process).thread = t
  user : ∀ t ∈ knownThrds s, ctx s t ≠ .kernel → (s.thread t).process ≠ 0
  born : ∀ p ∈ knownProcs s, (s.proc p).parent ≠ 0 → Born past s p
  ended : ∀ p ∈ knownProcs s, (s.proc p).state = .dead →
    Ended past s p ∧ ctx s (s.proc p).thread = .exitLoop
  call : ∀ t ∈ knownThrds s, CallRight s (s.thread t).process (ctx s t)

theorem CallRight.of_none {s : System} {q : Ptr} {c : Cont} (hc : c.call? = none) :
    CallRight s q c where
  awaited w hw := by simp [hc] at hw
  loop w hw := by simp [hw, Cont.call?] at hc
  tail w stmt sti hw := by simp [hw, Cont.call?] at hc

/-- Of the known records the links between processes and threads are the same. -/
structure SameRecords (s s' : System) : Prop where
  thrds : ∀ t, t ∈ knownThrds s' ↔ t ∈ knownThrds s
  procs : ∀ p, p ∈ knownProcs s' ↔ p ∈ knownProcs s
  process : ∀ t ∈ knownThrds s, (s'.thread t).process = (s.thread t).process
  parent : ∀ p ∈ knownProcs s, (s'.proc p).parent = (s.proc p).parent
  pid : ∀ p ∈ knownProcs s, (s'.proc p).pid = (s.proc p).pid
  thread : ∀ p ∈ knownProcs s, (s'.proc p).thread = (s.proc p).thread

/-- And of the processes, states and exit codes. -/
def SameStates (s s' : System) : Prop :=
  ∀ p ∈ knownProcs s, (s'.proc p).state = (s.proc p).state ∧
    (s'.proc p).exitCode = (s.proc p).exitCode

theorem SameLinks.records {s s' : System} (h : SameLinks s s') : SameRecords s s' :=
  ⟨h.thrds, h.procs, h.process, h.parent, h.pid, h.thread⟩

theorem SameRecords.born {s s' : System} {es : List Event} {p : Ptr} (hr : SameRecords s s')
    (hc : Closed s) (hp : p ∈ knownProcs s) (hparent : (s.proc p).parent ≠ 0) :
    Born es s' p ↔ Born es s p := by
  have hknown := (hc.parent p hp).resolve_left hparent
  rw [Born, Born, hr.parent p hp, hr.pid p hp, hr.thread p hp, hr.pid _ hknown]

/-- Dead processes stay as they are. -/
def KeepsDead (s s' : System) : Prop :=
  ∀ p ∈ knownProcs s, (s.proc p).state = .dead →
    (s'.proc p).state = .dead ∧ (s'.proc p).exitCode = (s.proc p).exitCode

theorem SameRecords.ended {s s' : System} {es : List Event} {p : Ptr} (hr : SameRecords s s')
    (hc : Closed s) (hp : p ∈ knownProcs s) (hcode : (s'.proc p).exitCode = (s.proc p).exitCode)
    (h : Ended es s p) : Ended es s' p := by
  obtain ⟨before, woken, after, heq, hborn⟩ := h
  refine ⟨before, woken, after, ?_, fun hparent => ?_⟩
  · rw [hr.thread p hp, hr.pid p hp, hcode]
    exact heq
  · rw [hr.parent p hp] at hparent
    exact (hr.born hc hp hparent).mpr (hborn hparent)

/-- A context stays right when the step lets its process wait on or its child
die. -/
theorem CallRight.mono {s s' : System} {q : Ptr} {c : Cont} (h : CallRight s q c)
    (hr : SameRecords s s') (hdead : KeepsDead s s')
    (hchild : ∀ w, c.call? = some w → w.child ∈ knownProcs s)
    (hwake : ∀ w, c = .waitLoop w → (s.proc q).state = .waiting →
      (s'.proc q).state = .waiting ∨ (s'.proc w.child).state = .dead) : CallRight s' q c where
  awaited w hw := by
    rw [hr.parent _ (hchild w hw), hr.pid _ (hchild w hw)]
    exact h.awaited w hw
  loop w hw := by
    have hknown := hchild w (by rw [hw]; rfl)
    obtain ⟨hstored, hwaiting | hended⟩ := h.loop w hw
    · exact ⟨hstored, hwake w hw hwaiting⟩
    · exact ⟨hstored, .inr (hdead _ hknown hended).1⟩
  tail w stmt sti hw := by
    have hknown := hchild w (by rw [hw]; rfl)
    obtain ⟨hended, hstored⟩ := h.tail w stmt sti hw
    rw [(hdead _ hknown hended).2]
    exact ⟨(hdead _ hknown hended).1, hstored⟩

/-- **The step lemma** for steps that create nothing: `c` is where the thread
that ran goes on. -/
theorem WaitInv.of_records {past : List Event} {e : Event} {s s' : System} {c : Cont}
    (h : WaitInv past s) (hc : Closed s') (hr : SameRecords s s')
    (hctx : ∀ t ∈ knownThrds s, ctx s' t = if t = s.currThread then c else ctx s t)
    (hwaits : WaitsRight (past ++ [e])) (hdead : KeepsDead s s')
    (hnew : ∀ p ∈ knownProcs s, (s'.proc p).state = .dead → (s.proc p).state = .dead ∨
      Ended (past ++ [e]) s' p ∧ (s.proc p).thread = s.currThread ∧ c = .exitLoop)
    (hkernel : s.running = .kernel → c = .kernel) (hexit : s.running = .exitLoop → c = .exitLoop)
    (hwake : ∀ t ∈ knownThrds s, t ≠ s.currThread → ∀ w, ctx s t = .waitLoop w →
      (s.proc (s.thread t).process).state = .waiting →
        (s'.proc (s.thread t).process).state = .waiting ∨ (s'.proc w.child).state = .dead)
    (hcurr : CallRight s' s.currProcess c) : WaitInv (past ++ [e]) s' where
  closed := hc
  waits := hwaits
  owner t ht hne := by
    have ht := (hr.thrds t).mp ht
    rw [hr.process t ht] at hne ⊢
    rw [hr.thread _ ((h.closed.process t ht).resolve_left hne)]
    exact h.owner t ht hne
  user t ht hne := by
    have ht := (hr.thrds t).mp ht
    rw [hctx t ht] at hne
    rw [hr.process t ht]
    refine h.user t ht fun hkernel' => hne ?_
    split
    case isTrue heq =>
      rw [heq, ctx_curr] at hkernel'
      exact hkernel hkernel'
    case isFalse => exact hkernel'
  born p hp hparent := by
    have hp := (hr.procs p).mp hp
    rw [hr.parent p hp] at hparent
    exact ((hr.born h.closed hp hparent).mpr (h.born p hp hparent)).append
  ended p hp hstate := by
    have hp := (hr.procs p).mp hp
    have hthread := h.closed.thread p hp
    rw [hr.thread p hp, hctx _ hthread]
    rcases hnew p hp hstate with hold | ⟨hended, heq, hc⟩
    · obtain ⟨hended, hloop⟩ := h.ended p hp hold
      refine ⟨(hr.ended h.closed hp (hdead p hp hold).2 hended).append, ?_⟩
      split
      case isTrue heq =>
        rw [heq, ctx_curr] at hloop
        exact hexit hloop
      case isFalse => exact hloop
    · rw [if_pos heq]
      exact ⟨hended, hc⟩
  call t ht := by
    have ht := (hr.thrds t).mp ht
    rw [hr.process t ht, hctx t ht]
    split
    case isTrue heq =>
      rw [heq, ← h.closed.currProcess]
      exact hcurr
    case isFalse hne => exact (h.call t ht).mono hr hdead (h.closed.child t ht) (hwake t ht hne)

/-- The same when no process changes its state. -/
theorem WaitInv.of_states {past : List Event} {e : Event} {s s' : System} {c : Cont}
    (h : WaitInv past s) (hc : Closed s') (hr : SameRecords s s') (hstates : SameStates s s')
    (hctx : ∀ t ∈ knownThrds s, ctx s' t = if t = s.currThread then c else ctx s t)
    (hwaits : WaitsRight (past ++ [e]))
    (hkernel : s.running = .kernel → c = .kernel) (hexit : s.running = .exitLoop → c = .exitLoop)
    (hcurr : CallRight s' s.currProcess c) : WaitInv (past ++ [e]) s' := by
  refine h.of_records hc hr hctx hwaits (fun p hp hdead => ?_) (fun p hp hdead => .inl ?_) hkernel
    hexit (fun t ht _ w hw hwaiting => .inl ?_) hcurr
  · exact ⟨(hstates p hp).1.trans hdead, (hstates p hp).2⟩
  · exact (hstates p hp).1.symm.trans hdead
  · have huser := h.user t ht (by rw [hw]; exact Cont.noConfusion)
    have hknown := (h.closed.process t ht).resolve_left huser
    exact (hstates _ hknown).1.trans hwaiting

/-- The context of the running thread stays right when no process changes its
state. -/
theorem WaitInv.running {past : List Event} {s s' : System} (h : WaitInv past s)
    (hr : SameRecords s s') (hstates : SameStates s s') :
    CallRight s' s.currProcess s.running := by
  have hcurr := h.call _ h.closed.curr
  rw [ctx_curr, ← h.closed.currProcess] at hcurr
  have hchild := h.closed.child _ h.closed.curr
  rw [ctx_curr] at hchild
  refine hcurr.mono hr (fun p hp hdead => ⟨(hstates p hp).1.trans hdead, (hstates p hp).2⟩) hchild
    fun w hw hwaiting => .inl ?_
  have hknown : s.currProcess ∈ knownProcs s := by
    have huser := h.user _ h.closed.curr (by rw [ctx_curr, hw]; exact Cont.noConfusion)
    rw [h.closed.currProcess]
    exact (h.closed.process _ h.closed.curr).resolve_left huser
  exact (hstates _ hknown).1.trans hwaiting

/-! ## The steps -/

theorem sameStates_of_proc {s s' : System} (h : ∀ p ∈ knownProcs s, s'.proc p = s.proc p) :
    SameStates s s' :=
  fun p hp => by rw [h p hp]; exact ⟨rfl, rfl⟩

/-- A quiet step that leaves the processes alone and is in no `sys_wait` after. -/
theorem WaitInv.of_quiet {past : List Event} {e : Event} {s s' : System} (h : WaitInv past s)
    (hc : Closed s') (hq : Quiet s s') (hproc : ∀ p ∈ knownProcs s, s'.proc p = s.proc p)
    (he : ∀ caller pid stored, e ≠ .waitReturn caller pid stored)
    (hrun : s'.running = s.running ∨
      s'.running.call? = none ∧ s.running ≠ .kernel ∧ s.running ≠ .exitLoop) :
    WaitInv (past ++ [e]) s' := by
  have hstates := sameStates_of_proc hproc
  refine h.of_states hc hq.toSameLinks.records hstates (fun t ht => hq.ctx_eq ht)
    (h.waits.snoc fun caller pid stored heq => absurd heq (he caller pid stored)) ?_ ?_ ?_
  · rcases hrun with heq | ⟨-, hkernel, -⟩
    · exact fun hkernel => heq.trans hkernel
    · exact fun heq => absurd heq hkernel
  · rcases hrun with heq | ⟨-, -, hexit⟩
    · exact fun hexit => heq.trans hexit
    · exact fun heq => absurd heq hexit
  · rcases hrun with heq | ⟨hnone, -, -⟩
    · rw [heq]
      exact h.running hq.toSameLinks.records hstates
    · exact .of_none hnone

theorem waitInv_exit {past : List Event} {s : System} {code : Nat} (h : WaitInv past s)
    (hrun : s.running = .user) (hc : Closed (sysExit s code))
    (hwake : WakesAwaited s (.exit s.currThread (s.proc s.currProcess).pid code (exitWakes s))) :
    WaitInv (past ++ [.exit s.currThread (s.proc s.currProcess).pid code (exitWakes s)])
      (sysExit s code) := by
  have hq := quiet_sysExit s code
  have huser : s.currProcess ≠ 0 := by
    rw [h.closed.currProcess]
    exact h.user _ h.closed.curr (by rw [ctx_curr, hrun]; exact Cont.noConfusion)
  have hknown : s.currProcess ∈ knownProcs s :=
    (h.closed.currProcess ▸ h.closed.process _ h.closed.curr).resolve_left huser
  have hthread : (s.proc s.currProcess).thread = s.currThread := by
    have howner := h.owner _ h.closed.curr
    rw [← h.closed.currProcess] at howner
    exact howner huser
  have halive : (s.proc s.currProcess).state ≠ .dead := by
    intro hdead
    have hloop := (h.ended _ hknown hdead).2
    rw [hthread, ctx_curr, hrun] at hloop
    cases hloop
  have hcurrDead : ((sysExit s code).proc s.currProcess).state = .dead := by
    rw [sysExit_proc, if_pos rfl]
  refine h.of_records hc hq.toSameLinks.records (fun t ht => hq.ctx_eq ht)
    (h.waits.snoc (by simp)) (fun p hp hdead => ?_) (fun p hp hdead => ?_)
    (fun heq => absurd (hrun.symm.trans heq) Cont.noConfusion) (fun _ => rfl)
    (fun t ht hne w hw hwaiting => ?_) (.of_none rfl)
  · have hne : p ≠ s.currProcess := fun heq => halive (heq ▸ hdead)
    rw [sysExit_proc, if_neg hne, if_neg]
    · exact ⟨hdead, rfl⟩
    · rintro ⟨⟨-, -, hwaiting⟩, rfl⟩
      simp [hdead] at hwaiting
  · by_cases heq : p = s.currProcess
    · subst heq
      refine .inr ⟨⟨past, exitWakes s, [], ?_, fun hparent => ?_⟩, hthread, rfl⟩
      · rw [sysExit_proc, if_pos rfl, hthread]
      · rw [hq.parent _ hknown] at hparent
        exact (hq.toSameLinks.records.born h.closed hknown hparent).mpr (h.born _ hknown hparent)
    · rw [sysExit_proc, if_neg heq] at hdead
      split at hdead
      · cases hdead
      · exact .inl hdead
  · have hwait := h.user t ht (by rw [hw]; exact Cont.noConfusion)
    have howner := h.owner t ht hwait
    have hself : (s.thread t).process ≠ s.currProcess := by
      intro heq
      rw [heq, hthread] at howner
      exact hne howner.symm
    by_cases hfinds : FindsWaiting s ∧ (s.thread t).process = exitParent s
    · obtain ⟨hfinds, hparent⟩ := hfinds
      have hchild : w.child = s.currProcess := by
        refine hwake hfinds w ?_
        rw [← hparent, howner]
        exact hw
      rw [hchild]
      exact .inr hcurrDead
    · rw [sysExit_proc, if_neg hself, if_neg hfinds]
      exact .inl hwaiting

/-- The child that `sys_wait` found, from either of its branches on. -/
theorem Awaits.callRight {s s' : System} {pid : Nat} {w : WaitCall} {c : Cont}
    (ha : Awaits s pid w) (hc : Closed s) (hr : SameRecords s s') (hcall : c.call? = some w)
    (hloop : c = .waitLoop w → (s'.proc s.currProcess).state = .waiting)
    (htail : ∀ stmt sti, c = .waitTail w stmt sti → (s'.proc w.child).state = .dead) :
    CallRight s' s.currProcess c := by
  obtain ⟨hknown, hpid⟩ := uprocessFind_some hc ha.find ha.child
  constructor
  · intro w' hw
    obtain rfl := Option.some.inj (hcall.symm.trans hw)
    rw [hr.parent _ hknown, hr.pid _ hknown]
    exact ⟨ha.parent, hpid.trans ha.childPid.symm⟩
  · rintro w' rfl
    obtain rfl := Option.some.inj hcall
    exact ⟨ha.stored, .inl (hloop rfl)⟩
  · rintro w' stmt sti rfl
    obtain rfl := Option.some.inj hcall
    exact ⟨htail stmt sti rfl, .inl ha.stored⟩

theorem waitInv_wait {past : List Event} {s s' : System} {pid : Nat} {exitCode : Ptr}
    (h : WaitInv past s) (hrun : s.running = .user) (hc : Closed s')
    (hwait : sysWait s pid exitCode = some s') :
    WaitInv (past ++ [.wait s.currThread s'.running.inWaitLoop]) s' := by
  have hq := quiet_sysWait hwait
  have hr := hq.toSameLinks.records
  rcases sysWait_some hwait with rfl | ⟨w, hawaits, ⟨hstate, rfl⟩ | ⟨hdead, rfl⟩⟩
  · exact h.of_quiet hc hq (fun _ _ => rfl) (by simp) (.inl rfl)
  · have hproc : ∀ p, ((waitBlock s w).proc p) =
        if p = s.currProcess then { s.proc p with state := .waiting } else s.proc p := by
      intro p
      simp only [waitBlock, setThread_proc, setProc_proc]
      split
      case isTrue heq => rw [heq]
      case isFalse => rfl
    refine h.of_records hc hr (fun t ht => hq.ctx_eq ht) (h.waits.snoc (by simp))
      (fun p hp hdead => ?_) (fun p hp hdead => .inl ?_)
      (fun heq => absurd (hrun.symm.trans heq) Cont.noConfusion)
      (fun heq => absurd (hrun.symm.trans heq) Cont.noConfusion)
      (fun t ht _ w' _ hwaiting => .inl ?_) ?_
    · -- the caller itself runs, so it is not dead
      have hne : p ≠ s.currProcess := by
        rintro rfl
        have huser := h.user _ h.closed.curr (by rw [ctx_curr, hrun]; exact Cont.noConfusion)
        have hloop := (h.ended _ hp hdead).2
        rw [h.closed.currProcess, h.owner _ h.closed.curr huser, ctx_curr, hrun] at hloop
        cases hloop
      rw [hproc, if_neg hne]
      exact ⟨hdead, rfl⟩
    · rw [hproc] at hdead
      split at hdead
      · cases hdead
      · exact hdead
    · rw [hproc]
      split
      · rfl
      · exact hwaiting
    · refine hawaits.callRight h.closed hr rfl (fun _ => ?_) fun _ _ heq => by cases heq
      rw [hproc, if_pos rfl]
  · refine h.of_states hc hr (sameStates_of_proc fun _ _ => rfl) (fun t ht => hq.ctx_eq ht)
      (h.waits.snoc (by simp)) (fun heq => absurd (hrun.symm.trans heq) Cont.noConfusion)
      (fun heq => absurd (hrun.symm.trans heq) Cont.noConfusion)
      (hawaits.callRight h.closed hr rfl Cont.noConfusion fun _ _ _ => hdead)

theorem WaitInv.running_call {past : List Event} {s : System} (h : WaitInv past s) :
    CallRight s s.currProcess s.running := by
  have hcurr := h.call _ h.closed.curr
  rwa [ctx_curr, ← h.closed.currProcess] at hcurr

theorem waitInv_waitEnds {past : List Event} {s : System} {w : WaitCall} (h : WaitInv past s)
    (hrun : s.running = .waitLoop w) (hstate : (s.proc s.currProcess).state ≠ .waiting)
    (hc : Closed { s with running := .waitTail w .store true }) :
    WaitInv (past ++ [.waitEnds]) { s with running := .waitTail w .store true } := by
  have hq : Quiet s { s with running := .waitTail w .store true } := quiet_globals s _ _ _ _
  have hcall := h.running_call
  rw [hrun] at hcall
  obtain ⟨hstored, hdead⟩ := hcall.loop w rfl
  refine h.of_states hc hq.toSameLinks.records (sameStates_of_proc fun _ _ => rfl)
    (fun t ht => hq.ctx_eq ht) (h.waits.snoc (by simp))
    (fun heq => absurd (hrun.symm.trans heq) Cont.noConfusion)
    (fun heq => absurd (hrun.symm.trans heq) Cont.noConfusion) ⟨?_, ?_, ?_⟩
  · rintro w' hw
    obtain rfl := Option.some.inj hw
    exact hcall.awaited w rfl
  · rintro w' ⟨⟩
  · rintro w' stmt sti ⟨⟩
    exact ⟨hdead.resolve_left hstate, .inl hstored⟩

/-- `uprocess_remove` changes links of the list only. -/
theorem uprocessRemove_same {s s' : System} {pid : Nat} (h : Closed s)
    (hremove : uprocessRemove s pid = some s') : SameRecords s s' ∧ SameStates s s' ∧
      s'.thread = s.thread ∧ s'.currThread = s.currThread := by
  have hlinks : ∀ (prev q : Ptr) (p : Ptr),
      (setProc s prev fun r => { r with next := q }).proc p =
        { s.proc p with next := if p = prev then q else (s.proc p).next } := by
    intro prev q p
    rw [setProc_proc]
    split
    case isTrue heq => rw [heq]
    case isFalse => rfl
  rcases uprocessRemoveLoop_some h (.inl rfl) h.list hremove with rfl | ⟨prev, p, -, -, -, rfl⟩
  · exact ⟨(Quiet.refl _).records, sameStates_of_proc fun _ _ => rfl, rfl, rfl⟩
  · split
    · exact ⟨⟨fun _ => .rfl, fun _ => .rfl, fun _ _ => rfl, fun _ _ => rfl, fun _ _ => rfl,
        fun _ _ => rfl⟩, sameStates_of_proc fun _ _ => rfl, rfl, rfl⟩
    · refine ⟨⟨fun _ => .rfl, fun _ => .rfl, fun _ _ => rfl, fun x _ => ?_, fun x _ => ?_,
        fun x _ => ?_⟩, fun x _ => ?_, rfl, rfl⟩
      all_goals rw [hlinks]
      exact ⟨rfl, rfl⟩

/-- What a statement of `sys_wait` before its return leaves alone. -/
theorem waitStatement_same {s s' : System} (h : Closed s) {w : WaitCall} {stmt : WaitStmt}
    {sti : Bool} (hrun : s.running = .waitTail w stmt sti) (hstmt : stmt ≠ .ret)
    (hstep : waitStatement s w sti stmt = some s') : SameRecords s s' ∧ SameStates s s' ∧
      (∀ t ∈ knownThrds s, ctx s' t = if t = s.currThread then s'.running else ctx s t) ∧
      ∃ w' stmt', s'.running = .waitTail w' stmt' sti ∧ w'.child = w.child ∧
        w'.childPid = w.childPid ∧ (w'.stored = w.stored ∨ w'.stored = none ∨
          w'.stored = some (s.proc w.child).exitCode) := by
  by_cases hremove : stmt = .remove
  · subst hremove
    obtain ⟨s₁, hremove, rfl⟩ := Option.map_eq_some_iff.mp hstep
    obtain ⟨hr, hstates, hthread, hcurr⟩ := uprocessRemove_same h hremove
    refine ⟨⟨hr.thrds, hr.procs, hr.process, hr.parent, hr.pid, hr.thread⟩, hstates,
      fun t _ => ?_, w, _, rfl, rfl, rfl, .inl rfl⟩
    simp only [ctx, hthread, hcurr]
    split <;> rfl
  · have hq := quiet_waitStatement h hrun hremove hstep
    have hctx : ∀ t ∈ knownThrds s, ctx s' t = if t = s.currThread then s'.running else ctx s t :=
      fun t ht => hq.ctx_eq ht
    cases stmt with
    | remove => exact absurd rfl hremove
    | ret => exact absurd rfl hstmt
    | store =>
      obtain rfl := Option.some.inj hstep
      refine ⟨hq.records, sameStates_of_proc fun _ _ => rfl, hctx, _, _, rfl, rfl, rfl, .inr ?_⟩
      dsimp only
      split
      · exact .inr rfl
      · exact .inl rfl
    | freeStack | freeThread | freeProcess =>
      obtain rfl := Option.some.inj hstep
      exact ⟨hq.records, sameStates_of_proc fun _ _ => rfl, hctx, w, _, rfl, rfl, rfl, .inl rfl⟩

theorem waitInv_waitStatement {past : List Event} {s s' : System} {w : WaitCall} {stmt : WaitStmt}
    {sti : Bool} (h : WaitInv past s) (hrun : s.running = .waitTail w stmt sti) (hstmt : stmt ≠ .ret)
    (hc : Closed s') (hstep : waitStatement s w sti stmt = some s') :
    WaitInv (past ++ [.waitStatement stmt]) s' := by
  obtain ⟨hr, hstates, hctx, w', stmt', hrun', hchild, hpid, hstored⟩ :=
    waitStatement_same h.closed hrun hstmt hstep
  have hcall := h.running hr hstates
  have hold := h.running_call
  rw [hrun] at hcall hold
  obtain ⟨hdead, hstored₀⟩ := hcall.tail w stmt sti rfl
  have hcode : (s'.proc w.child).exitCode = (s.proc w.child).exitCode := by
    have hknown := h.closed.child _ h.closed.curr w (by rw [ctx_curr, hrun]; rfl)
    exact (hstates _ hknown).2
  refine h.of_states hc hr hstates hctx (h.waits.snoc (by simp))
    (fun heq => absurd (hrun.symm.trans heq) Cont.noConfusion)
    (fun heq => absurd (hrun.symm.trans heq) Cont.noConfusion) ?_
  rw [hrun']
  refine ⟨?_, ?_, ?_⟩
  · rintro _ ⟨⟩
    rw [hchild, hpid]
    exact hcall.awaited w rfl
  · rintro _ ⟨⟩
  · rintro _ _ _ ⟨⟩
    rw [hchild]
    refine ⟨hdead, ?_⟩
    rcases hstored with heq | heq | heq
    · rw [heq]
      exact hstored₀
    · exact .inl heq
    · rw [hcode]
      exact .inr heq

theorem waitInv_waitReturn {past : List Event} {s : System} {w : WaitCall} {sti : Bool}
    (h : WaitInv past s) (hrun : s.running = .waitTail w .ret sti)
    (hc : Closed { s with running := .user }) :
    WaitInv (past ++ [.waitReturn (s.proc s.currProcess).pid w.childPid w.stored])
      { s with running := .user } := by
  have hq : Quiet s { s with running := .user } := quiet_globals s _ _ _ _
  have hcall := h.running_call
  rw [hrun] at hcall
  obtain ⟨hdead, hstored⟩ := hcall.tail w .ret sti rfl
  obtain ⟨hparent, hpid⟩ := hcall.awaited w rfl
  have hknown := h.closed.child _ h.closed.curr w (by rw [ctx_curr, hrun]; rfl)
  have huser : s.currProcess ≠ 0 := by
    rw [h.closed.currProcess]
    exact h.user _ h.closed.curr (by rw [ctx_curr, hrun]; exact Cont.noConfusion)
  refine h.of_states hc hq.toSameLinks.records (sameStates_of_proc fun _ _ => rfl)
    (fun t ht => hq.ctx_eq ht) (h.waits.snoc ?_)
    (fun heq => absurd (hrun.symm.trans heq) Cont.noConfusion)
    (fun heq => absurd (hrun.symm.trans heq) Cont.noConfusion) (.of_none rfl)
  rintro caller pid stored ⟨⟩
  obtain ⟨⟨before, woken, after, heq, hborn⟩, -⟩ := h.ended _ hknown hdead
  rw [hparent] at hborn
  obtain ⟨reused, hmem⟩ := hborn huser
  rw [hparent, hpid] at hmem
  rw [hpid] at heq
  exact ⟨before, w.child, _, reused, _, woken, after, heq, hmem, hstored⟩

theorem CallRight.congr {s s' : System} {q : Ptr} {c : Cont} (h : CallRight s q c)
    (hsame : ∀ w, c.call? = some w → s'.proc q = s.proc q ∧ s'.proc w.child = s.proc w.child) :
    CallRight s' q c where
  awaited w hw := by
    rw [(hsame w hw).2]
    exact h.awaited w hw
  loop w hw := by
    have hboth := hsame w (by rw [hw]; rfl)
    rw [hboth.1, hboth.2]
    exact h.loop w hw
  tail w stmt sti hw := by
    rw [(hsame w (by rw [hw]; rfl)).2]
    exact h.tail w stmt sti hw

theorem Born.congr {es : List Event} {s s' : System} {p : Ptr} (h : Born es s p)
    (hp : s'.proc p = s.proc p)
    (hparent : s'.proc (s.proc p).parent = s.proc (s.proc p).parent) : Born es s' p := by
  rw [Born, hp, hparent]
  exact h

/-- A new process, and what happens to the known records. -/
structure NewProcess (s s' : System) (p t pageDir : Ptr) : Prop where
  thrds : ∀ x, x ∈ knownThrds s' ↔ x = t ∨ x ∈ knownThrds s
  procs : ∀ x, x ∈ knownProcs s' ↔ x = p ∨ x ∈ knownProcs s
  process : ∀ x ∈ knownThrds s, (s'.thread x).process = (s.thread x).process
  proc : ∀ x ∈ knownProcs s, s'.proc x = s.proc x
  ctx : ∀ x ∈ knownThrds s, ctx s' x = ctx s x
  newCtx : Process.ctx s' t = .user
  newThread : (s'.thread t).process = p
  newProc : s'.proc p =
    { pid := s.nextPid, pageDir, thread := t, state := .running, parent := s.currProcess
      next := s.processList, exitCode := 0 }

theorem spawn_newProcess {s s' : System} (h : Closed s) {p t pageDir : Ptr} {reused : List Ptr}
    {mt : Ptr → ThreadT} {mp : Ptr → ProcessT} (hfree : Unallocated s reused) (hp : Fresh s p)
    (ht : Fresh s t)
    (hreuse : ∀ x, x = p ∨ x = t ∨ x ∈ reused → x ∉ s.freedThrds ∧ x ∉ s.freedProcs)
    (hspawn : sysSpawn (overwrite s reused mt mp) p t pageDir = some s') :
    NewProcess s s' p t pageDir := by
  obtain ⟨hq, hup, hut, tail, -, hs⟩ := spawn_step h hfree hp ht hreuse hspawn
  obtain ⟨hsameT, hsameP⟩ := overwrite_known mt mp hfree fun x hx => hreuse x (.inr (.inr hx))
  have hup : Unknown (overwrite s reused mt mp) p := ⟨hup.thrd, hup.proc⟩
  have hut : Unknown (overwrite s reused mt mp) t := ⟨hut.thrd, hut.proc⟩
  refine ⟨hs.mem_thrds hup hut, hs.mem_procs hup hut, fun x hx => ?_, fun x hx => ?_, fun x hx => ?_,
    ?_, ?_, ?_⟩
  · rw [hs.thread_known hut hx, hsameT x hx]
  · rw [hs.proc_known hup hx, hsameP x hx]
  · have hne : x ≠ t := fun heq => hut.thrd (heq ▸ hx)
    rw [hs.ctx_eq hut h.curr x (.inr hx), if_neg hne, hq.ctx_eq hx]
    split
    case isTrue heq => rw [heq, ctx_curr]; rfl
    case isFalse => rfl
  · rw [hs.ctx_eq hut h.curr t (.inl rfl), if_pos rfl]
  · rw [hs.thread, if_pos rfl]
  · rw [hs.proc, if_pos rfl]
    rfl

theorem waitInv_spawn {past : List Event} {s s' : System} (h : WaitInv past s)
    {p t pageDir : Ptr} {reused : List Ptr} {mt : Ptr → ThreadT} {mp : Ptr → ProcessT}
    (hfree : Unallocated s reused) (hp : Fresh s p) (ht : Fresh s t)
    (hreuse : ∀ x, x = p ∨ x = t ∨ x ∈ reused → x ∉ s.freedThrds ∧ x ∉ s.freedProcs)
    (hspawn : sysSpawn (overwrite s reused mt mp) p t pageDir = some s') (hc : Closed s') :
    WaitInv (past ++ [.spawn (s.proc s.currProcess).pid s.nextPid p t reused]) s' := by
  have hclosed := h.closed
  have hn := spawn_newProcess hclosed hfree hp ht hreuse hspawn
  refine ⟨hc, h.waits.snoc (by simp), fun x hx hne => ?_, fun x hx hne => ?_, fun x hx hne => ?_,
    fun x hx hdead => ?_, fun x hx => ?_⟩
  · rcases (hn.thrds x).mp hx with rfl | hx
    · rw [hn.newThread, hn.newProc]
    · rw [hn.process x hx] at hne ⊢
      rw [hn.proc _ ((hclosed.process x hx).resolve_left hne)]
      exact h.owner x hx hne
  · rcases (hn.thrds x).mp hx with rfl | hx
    · rw [hn.newThread]
      exact hp.1
    · rw [hn.ctx x hx] at hne
      rw [hn.process x hx]
      exact h.user x hx hne
  · rcases (hn.procs x).mp hx with rfl | hx
    · have hparent : (s'.proc x).parent = s.currProcess := by rw [hn.newProc]
      rw [hparent] at hne
      have hknown := (hclosed.currProcess ▸ hclosed.process _ hclosed.curr).resolve_left hne
      refine ⟨reused, List.mem_append_right _ ?_⟩
      rw [hparent, hn.proc _ hknown, hn.newProc]
      exact List.mem_singleton.mpr rfl
    · have hsame := hn.proc x hx
      rw [hsame] at hne
      exact ((h.born x hx hne).congr hsame
        (hn.proc _ ((hclosed.parent x hx).resolve_left hne))).append
  · rcases (hn.procs x).mp hx with rfl | hx
    · rw [hn.newProc] at hdead
      cases hdead
    · have hsame := hn.proc x hx
      rw [hsame] at hdead ⊢
      obtain ⟨⟨before, woken, after, heq, hborn⟩, hloop⟩ := h.ended x hx hdead
      refine ⟨Ended.append ⟨before, woken, after, by rw [hsame]; exact heq, fun hne => ?_⟩, ?_⟩
      · rw [hsame] at hne
        exact (hborn hne).congr hsame (hn.proc _ ((hclosed.parent x hx).resolve_left hne))
      · rw [hn.ctx _ (hclosed.thread x hx)]
        exact hloop
  · rcases (hn.thrds x).mp hx with rfl | hx
    · rw [hn.newCtx]
      exact .of_none rfl
    · rw [hn.ctx x hx, hn.process x hx]
      refine (h.call x hx).congr fun w hw =>
        ⟨hn.proc _ ?_, hn.proc _ (hclosed.child x hx w hw)⟩
      refine (hclosed.process x hx).resolve_left (h.user x hx fun heq => ?_)
      simp [heq, Cont.call?] at hw

theorem waitInv_switch {past : List Event} {s s' : System} {next : Ptr} (h : WaitInv past s)
    (hc : Closed { s' with inIrq := false })
    (hswitch : schedulerSwitch { s with schedulePending := false } = some (next, s')) :
    WaitInv (past ++ [.switch s.currThread next]) { s' with inIrq := false } := by
  have hs := schedulerSwitch_switched (closed_pending h.closed false) hswitch
  have hproc : s'.proc = s.proc := by rw [schedulerSwitch_proc hswitch]
  have hr : SameRecords s { s' with inIrq := false } :=
    ⟨hs.thrds, hs.procs, hs.process, hs.parent, hs.pid, hs.thread⟩
  have hstates : SameStates s { s' with inIrq := false } :=
    sameStates_of_proc fun p _ => congrFun hproc p
  refine h.of_states hc hr hstates (fun t _ => ?_) (h.waits.snoc (by simp)) id id
    (h.running hr hstates)
  have hctx : ctx { s' with inIrq := false } t = ctx s t := hs.ctx t
  rw [hctx]
  split
  case isTrue heq => rw [heq, ctx_curr]
  case isFalse => rfl

theorem ttyReadLoop_proc (s : System) (len : Nat) : (ttyReadLoop s len).proc = s.proc := by
  unfold ttyReadLoop
  split <;> rfl

theorem ttyReadLoop_call (s : System) (len : Nat) : (ttyReadLoop s len).running.call? = none := by
  unfold ttyReadLoop
  split <;> rfl

/-- **One step** that meets the condition. -/
theorem waitInv_step {past : List Event} {e : Event} {s s' : System} (h : WaitInv past s)
    (hstep : Guarded SingleWake SysStep s e s') : WaitInv (past ++ [e]) s' := by
  obtain ⟨⟨hreuse, hwake⟩, hstep⟩ := hstep
  have hc := closed_step h.closed hreuse hstep
  cases hstep with
  | spawn _ _ hfree hp ht _ _ _ hspawn => exact waitInv_spawn h hfree hp ht hreuse hspawn hc
  | spawnFailed _ _ hfree =>
    obtain ⟨-, hproc⟩ := overwrite_known _ _ hfree hreuse
    exact h.of_quiet hc (quiet_overwrite hfree hreuse) hproc (by simp) (.inl rfl)
  | exit hrun => exact waitInv_exit h hrun hc hwake
  | wait hrun _ hwait => exact waitInv_wait h hrun hc hwait
  | waitEnds hrun _ hstate => exact waitInv_waitEnds h hrun hstate hc
  | waitStatement hrun _ hstmt hstep => exact waitInv_waitStatement h hrun hstmt hc hstep
  | waitReturn hrun _ hstep =>
    obtain rfl := Option.some.inj hstep
    exact waitInv_waitReturn h hrun hc
  | ttyRead hrun =>
    refine h.of_quiet hc (quiet_ttyReadLoop s _) (fun p _ => ?_) (by simp) (.inr ⟨?_, ?_, ?_⟩)
    · rw [ttyReadLoop_proc]
    · exact ttyReadLoop_call s _
    · simp [hrun]
    · simp [hrun]
  | ttyResume hrun =>
    refine h.of_quiet hc ((quiet_threadState s _ _).trans (quiet_ttyReadLoop _ _)) (fun p _ => ?_)
      (by simp) (.inr ⟨?_, ?_, ?_⟩)
    · rw [ttyResume, ttyReadLoop_proc, setThread_proc]
    · exact ttyReadLoop_call _ _
    · simp [hrun]
    · simp [hrun]
  | @irq src =>
    refine h.of_quiet hc ((quiet_irqHandler s src).trans (quiet_globals _ _ _ _ _))
      (fun p _ => ?_) (by simp) ?_
    · dsimp only
      rw [irqHandler_proc]
    · cases hrun : s.running with
      | ttyHalted len => exact .inr ⟨rfl, by simp, by simp⟩
      | user | kernel | exitLoop | waitLoop | waitTail | ttyWoken => exact .inl rfl
  | irqReturn => exact h.of_quiet hc (quiet_globals s _ _ _ _) (fun _ _ => rfl) (by simp) (.inl rfl)
  | switch _ _ _ hswitch => exact waitInv_switch h hc hswitch

/-! ## Runs -/

theorem Booted.waitInv {b : Boot} {s : System} (h : Booted b s) : WaitInv [] s := by
  obtain ⟨hT, hP⟩ := h.known
  obtain ⟨cidle, cmain, cinit⟩ := h.ctx
  obtain ⟨_, hidle⟩ := h.idle
  obtain ⟨_, hmain⟩ := h.main
  obtain ⟨_, hinit⟩ := h.initThread
  refine ⟨h.closed, ?_, ?_, ?_, ?_, ?_, ?_⟩
  · intro past caller pid stored rest heq
    simp at heq
  · simp [hT, hidle, hmain, hinit, h.init]
  · simp [hT, cidle, cmain, hinit, b.nonzero.2.2.2]
  · simp [hP, h.init]
  · simp [hP, h.init]
  · intro t ht
    refine .of_none ?_
    simp only [hT, List.mem_cons, List.not_mem_nil, or_false] at ht
    rcases ht with rfl | rfl | rfl
    · rw [cinit]
      rfl
    · rw [cmain]
      rfl
    · rw [cidle]
      rfl

/-- **`sys_wait`.**  In a run from boot in which no freed memory is handed out
again and every exit that wakes a waiting parent is that of the child it waits
for, `sys_wait` returns 0 only for a child that exited, with its exit code. -/
theorem waits_right {b : Boot} {s₀ s : System} {es : List Event} (hboot : kmain b = some s₀)
    (hrun : Run (Guarded SingleWake SysStep) s₀ es s) : WaitsRight es := by
  have h₀ : WaitInv [] s₀ := (kmain_booted hboot).waitInv
  exact (hrun.history (I := WaitInv) (fun _ _ _ _ => waitInv_step) h₀).waits

/-! ## Runs of the two kinds -/

instance (s : System) : (e : Event) → Decidable (NoReuse s e)
  | .spawn _ _ p t reused =>
    decidable_of_iff (∀ x ∈ p :: t :: reused, x ∉ s.freedThrds ∧ x ∉ s.freedProcs)
      (by simp [NoReuse])
  | .spawnFailed reused =>
    inferInstanceAs (Decidable (∀ x ∈ reused, x ∉ s.freedThrds ∧ x ∉ s.freedProcs))
  | .exit .. | .wait .. | .waitEnds | .waitStatement .. | .waitReturn .. | .ttyRead .. | .irq ..
  | .irqReturn | .switch .. => .isTrue trivial

instance (p : Ptr) : (c : Cont) → Decidable (∀ w, c = .waitLoop w → w.child = p)
  | .waitLoop w => decidable_of_iff (w.child = p) ⟨by rintro h _ ⟨⟩; exact h, fun h => h w rfl⟩
  | .user | .kernel | .exitLoop | .waitTail .. | .ttyHalted .. | .ttyWoken .. =>
    .isTrue (by rintro w ⟨⟩)

instance (s : System) : (e : Event) → Decidable (WakesAwaited s e)
  | .exit .. => inferInstanceAs (Decidable (FindsWaiting s →
      ∀ w, ctx s (s.proc (exitParent s)).thread = .waitLoop w → w.child = s.currProcess))
  | .spawn .. | .spawnFailed .. | .wait .. | .waitEnds | .waitStatement .. | .waitReturn ..
  | .ttyRead .. | .irq .. | .irqReturn | .switch .. => .isTrue trivial

instance (s : System) (e : Event) : Decidable (SingleWake s e) :=
  inferInstanceAs (Decidable (_ ∧ _))

/-- Init spawns a child and waits for it, and the child exits. -/
def oneChild : List Choice :=
  tick ++ [.spawn 0x50 0x60 0x3000, .wait 2 0x1000, .irq .other, .switch] ++
    [.exit 7, .irq .other, .switch] ++ tick ++ tick ++ List.replicate 7 .waitOn

theorem oneChild_right : ∃ s₀ past s, kmain smallBoot = some s₀ ∧
    Run (Guarded SingleWake SysStep) s₀ (past ++ [.waitReturn 1 2 (some 7)]) s ∧
    WaitsRight (past ++ [.waitReturn 1 2 (some 7)]) := by
  have hplay : ((kmain smallBoot).bind fun s₀ => (playGuarded SingleWake s₀ oneChild).map
      fun r => r.1.getLast?) = some (some (.waitReturn 1 2 (some 7))) := by decide +kernel
  obtain ⟨s₀, hboot, hplay⟩ := Option.bind_eq_some_iff.mp hplay
  obtain ⟨⟨es, s⟩, hplay, hlast⟩ := Option.map_eq_some_iff.mp hplay
  obtain ⟨past, rfl⟩ := List.getLast?_eq_some_iff.mp hlast
  have hrun := playGuarded_run hplay
  exact ⟨s₀, past, s, hboot, hrun, waits_right hboot hrun⟩

/-- Init spawns two children, waits for the first, and the second exits. -/
def twoChildren : List Choice :=
  tick ++ [.spawn 0x50 0x60 0x3000, .spawn 0x70 0x80 0x4000, .wait 2 0x1000, .irq .other, .switch] ++
    tick ++ [.exit 7, .irq .other, .switch] ++ tick ++ tick ++ List.replicate 7 .waitOn

def Event.exitPid : Event → Option Nat
  | .exit _ pid _ _ => some pid
  | _ => none

/-- `sys_wait` returns for the first child, which has not exited. -/
theorem twoChildren_wrong : ∃ s₀ es s, kmain smallBoot = some s₀ ∧ Run SysStep s₀ es s ∧
    ¬ WaitsRight es := by
  obtain ⟨s₀, es, s, hboot, hrun, hP⟩ := playBoot_run twoChildren
    (fun es _ => decide (es.getLast? = some (.waitReturn 1 2 (some 0)) ∧
      ∀ e ∈ es, e.exitPid ≠ some 2)) (by decide +kernel)
  obtain ⟨hlast, hexits⟩ := of_decide_eq_true hP
  obtain ⟨past, rfl⟩ := List.getLast?_eq_some_iff.mp hlast
  refine ⟨s₀, _, s, hboot, hrun, fun hright => ?_⟩
  obtain ⟨before, p, t, reused, code, woken, after, rfl, -⟩ := hright past 1 2 (some 0) [] rfl
  exact hexits (.exit t 2 code woken) (by simp) rfl

end FrogKernel.Process
