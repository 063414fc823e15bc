import FrogKernel.Userspace.Waiting

/-!
# No wake-up of `sys_wait` is lost

`sys_wait` looks at the child, marks its process as waiting and blocks in one
step of the machine, and `sys_exit` marks the child dead and wakes its parent
in one step.  `no_lost_wake`: as long as no freed memory is handed out again, no
process waits for a child that is dead, whatever other exits wake it.
-/

namespace FrogKernel.Process

open FrogKernel.Runs FrogKernel.Tty

/-- No process in `PROCESS_WAITING` is in a `sys_wait` for a child that is dead. -/
def NoLostWake (s : System) : Prop :=
  ∀ t ∈ knownThrds s, ∀ w, ctx s t = .waitLoop w →
    (s.proc (s.thread t).process).state = .waiting → (s.proc w.child).state ≠ .dead

/-- The loop of a `sys_wait` of process `q`. -/
def LoopAwake (s : System) (q : Ptr) (c : Cont) : Prop :=
  ∀ w, c = .waitLoop w → (s.proc w.child).parent = q ∧
    ((s.proc q).state = .waiting → (s.proc w.child).state ≠ .dead)

structure AwakeInv (s : System) : Prop where
  closed : Closed s
  owner : ∀ t ∈ knownThrds s, (s.thread t).process ≠ 0 → (s.proc (s.thread t).process).thread = t
  user : ∀ t ∈ knownThrds s, ctx s t ≠ .kernel → (s.thread t).process ≠ 0
  loop : ∀ t ∈ knownThrds s, LoopAwake s (s.thread t).process (ctx s t)

theorem AwakeInv.noLostWake {s : System} (h : AwakeInv s) : NoLostWake s :=
  fun t ht w hw => (h.loop t ht w hw).2

theorem LoopAwake.of_ne {s : System} {q : Ptr} {c : Cont} (hc : ∀ w, c ≠ .waitLoop w) :
    LoopAwake s q c :=
  fun w hw => absurd hw (hc w)

/-- The process of a thread in `sys_wait`, in its loop or not. -/
theorem AwakeInv.process {s : System} (h : AwakeInv s) {t : Ptr} (ht : t ∈ knownThrds s)
    (hctx : ctx s t ≠ .kernel) :
    (s.thread t).process ∈ knownProcs s ∧ (s.proc (s.thread t).process).thread = t :=
  ⟨(h.closed.process t ht).resolve_left (h.user t ht hctx), h.owner t ht (h.user t ht hctx)⟩

/-- Two threads with a process do not share it. -/
theorem AwakeInv.process_ne {s : System} (h : AwakeInv s) {t : Ptr} (ht : t ∈ knownThrds s)
    (hctx : ctx s t ≠ .kernel) (hrun : s.running ≠ .kernel) (hne : t ≠ s.currThread) :
    (s.thread t).process ≠ s.currProcess := by
  intro heq
  have hcurr := (h.process h.closed.curr (by rwa [ctx_curr])).2
  have hthread := (h.process ht hctx).2
  rw [heq, h.closed.currProcess, hcurr] at hthread
  exact hne hthread.symm

/-- **The step lemma** for steps that create nothing: `c` is where the thread
that ran goes on. -/
theorem AwakeInv.of_records {s s' : System} {c : Cont} (h : AwakeInv s) (hc : Closed s')
    (hr : SameRecords s s')
    (hctx : ∀ t ∈ knownThrds s, ctx s' t = if t = s.currThread then c else ctx s t)
    (hkernel : s.running = .kernel → c = .kernel)
    (hothers : ∀ t ∈ knownThrds s, t ≠ s.currThread → ∀ w, ctx s t = .waitLoop w →
      (s'.proc (s.thread t).process).state = .waiting → (s'.proc w.child).state ≠ .dead)
    (hcurr : LoopAwake s' s.currProcess c) : AwakeInv s' where
  closed := hc
  owner t ht hne := by
    have ht := (hr.thrds t).mp ht
    rw [hr.process t ht] at hne ⊢
    rw [hr.thread _ ((h.closed.process t ht).resolve_left hne)]
    exact h.owner t ht hne
  user t ht hne := by
    have ht := (hr.thrds t).mp ht
    rw [hctx t ht] at hne
    rw [hr.process t ht]
    refine h.user t ht fun hkernel' => hne ?_
    split
    case isTrue heq =>
      rw [heq, ctx_curr] at hkernel'
      exact hkernel hkernel'
    case isFalse => exact hkernel'
  loop t ht := by
    have ht := (hr.thrds t).mp ht
    rw [hr.process t ht, hctx t ht]
    split
    case isTrue heq =>
      rw [heq, ← h.closed.currProcess]
      exact hcurr
    case isFalse hne =>
      intro w hw
      have hknown := h.closed.child t ht w (by rw [hw]; rfl)
      refine ⟨?_, hothers t ht hne w hw⟩
      rw [hr.parent _ hknown]
      exact (h.loop t ht w hw).1

/-- The same when no process changes its state and the current thread does not
enter the loop of `sys_wait`. -/
theorem AwakeInv.of_states {s s' : System} {c : Cont} (h : AwakeInv s) (hc : Closed s')
    (hr : SameRecords s s') (hstates : SameStates s s')
    (hctx : ∀ t ∈ knownThrds s, ctx s' t = if t = s.currThread then c else ctx s t)
    (hrun : c = s.running ∨ s.running ≠ .kernel ∧ ∀ w, c ≠ .waitLoop w) : AwakeInv s' := by
  have hsame : ∀ t ∈ knownThrds s, ∀ w, ctx s t = .waitLoop w →
      (s'.proc w.child).parent = (s.thread t).process ∧
        ((s'.proc (s.thread t).process).state = .waiting → (s'.proc w.child).state ≠ .dead) := by
    intro t ht w hw
    have hknown := h.closed.child t ht w (by rw [hw]; rfl)
    have hproc := (h.process ht (by simp [hw])).1
    rw [hr.parent _ hknown, (hstates _ hknown).1, (hstates _ hproc).1]
    exact h.loop t ht w hw
  refine h.of_records hc hr hctx (fun hkernel => ?_) (fun t ht _ w hw => (hsame t ht w hw).2) ?_
  · rcases hrun with rfl | ⟨hne, -⟩
    · exact hkernel
    · exact absurd hkernel hne
  · rcases hrun with rfl | ⟨-, hne⟩
    · intro w hw
      rw [h.closed.currProcess]
      exact hsame _ h.closed.curr w (by rw [ctx_curr]; exact hw)
    · exact .of_ne hne

/-- A quiet step that leaves the processes alone. -/
theorem AwakeInv.of_quiet {s s' : System} (h : AwakeInv s) (hc : Closed s') (hq : Quiet s s')
    (hproc : ∀ p ∈ knownProcs s, s'.proc p = s.proc p)
    (hrun : s'.running = s.running ∨ s.running ≠ .kernel ∧ ∀ w, s'.running ≠ .waitLoop w) :
    AwakeInv s' :=
  h.of_states hc hq.toSameLinks.records (sameStates_of_proc hproc) (fun _ ht => hq.ctx_eq ht) hrun

/-! ## The steps -/

/-- `sys_exit` wakes the parent if it waits for the process that exits. -/
theorem awakeInv_exit {s : System} {code : Nat} (h : AwakeInv s) (hrun : s.running = .user)
    (hc : Closed (sysExit s code)) : AwakeInv (sysExit s code) := by
  have hq := quiet_sysExit s code
  have hkernel : s.running ≠ .kernel := by simp [hrun]
  refine h.of_records hc hq.toSameLinks.records (fun t ht => hq.ctx_eq ht)
    (fun heq => absurd heq hkernel) (fun t ht hne w hw hwaiting => ?_)
    (.of_ne fun w hw => by cases hw)
  have hctx : ctx s t ≠ .kernel := by simp [hw]
  have hself := h.process_ne ht hctx hkernel hne
  obtain ⟨hparent, halive⟩ := h.loop t ht w hw
  rw [sysExit_proc, if_neg hself] at hwaiting
  split at hwaiting
  case isTrue => cases hwaiting
  case isFalse hfinds =>
    have hchild : w.child ≠ s.currProcess := by
      intro heq
      have hq : exitParent s = (s.thread t).process := by rw [exitParent, ← heq, hparent]
      refine hfinds ⟨⟨?_, ?_, ?_⟩, hq.symm⟩
      · rw [hq]
        exact h.user t ht hctx
      · rw [hq]
        exact hself
      · rw [hq]
        exact hwaiting
    rw [sysExit_proc, if_neg hchild]
    split
    · simp
    · exact halive hwaiting

/-- `sys_wait` marks its process as waiting after it saw the child alive. -/
theorem awakeInv_wait {s s' : System} {pid : Nat} {exitCode : Ptr} (h : AwakeInv s)
    (hrun : s.running = .user) (hc : Closed s') (hwait : sysWait s pid exitCode = some s') :
    AwakeInv s' := by
  have hq := quiet_sysWait hwait
  have hr := hq.toSameLinks.records
  have hkernel : s.running ≠ .kernel := by simp [hrun]
  rcases sysWait_some hwait with rfl | ⟨w, hawaits, ⟨hstate, rfl⟩ | ⟨-, rfl⟩⟩
  · exact h
  · have hproc : ∀ p, (waitBlock s w).proc p =
        if p = s.currProcess then { s.proc p with state := .waiting } else s.proc p := by
      intro p
      simp only [waitBlock, setThread_proc, setProc_proc]
      split
      case isTrue heq => rw [heq]
      case isFalse => rfl
    have halive : ∀ p, (s.proc p).state ≠ .dead → ((waitBlock s w).proc p).state ≠ .dead := by
      intro p hp
      rw [hproc]
      split
      · simp
      · exact hp
    refine h.of_records hc hr (fun t ht => hq.ctx_eq ht) (fun heq => absurd heq hkernel)
      (fun t ht hne w' hw hwaiting => ?_) ?_
    · have hself := h.process_ne ht (by simp [hw]) hkernel hne
      rw [hproc, if_neg hself] at hwaiting
      exact halive _ ((h.loop t ht w' hw).2 hwaiting)
    · rintro _ ⟨⟩
      obtain ⟨hknown, -⟩ := uprocessFind_some h.closed hawaits.find hawaits.child
      refine ⟨?_, fun _ => halive _ hstate⟩
      rw [hr.parent _ hknown]
      exact hawaits.parent
  · exact h.of_quiet hc hq (fun _ _ => rfl) (.inr ⟨hkernel, fun _ heq => by cases heq⟩)

theorem awakeInv_spawn {s s' : System} (h : AwakeInv s) {p t pageDir : Ptr} (hp : p ≠ 0)
    (hn : NewProcess s s' p t pageDir) (hc : Closed s') : AwakeInv s' := by
  have hknown : ∀ x ∈ knownThrds s, ctx s x ≠ .kernel → (s.thread x).process ∈ knownProcs s :=
    fun x hx hctx => (h.process hx hctx).1
  refine ⟨hc, fun x hx hne => ?_, fun x hx hne => ?_, fun x hx => ?_⟩
  · rcases (hn.thrds x).mp hx with rfl | hx
    · rw [hn.newThread, hn.newProc]
    · rw [hn.process x hx] at hne ⊢
      rw [hn.proc _ ((h.closed.process x hx).resolve_left hne)]
      exact h.owner x hx hne
  · rcases (hn.thrds x).mp hx with rfl | hx
    · rw [hn.newThread]
      exact hp
    · rw [hn.ctx x hx] at hne
      rw [hn.process x hx]
      exact h.user x hx hne
  · rcases (hn.thrds x).mp hx with rfl | hx
    · rw [hn.newCtx]
      exact .of_ne fun w hw => by cases hw
    · rw [hn.ctx x hx, hn.process x hx]
      intro w hw
      rw [hn.proc _ (h.closed.child x hx w (by rw [hw]; rfl)),
        hn.proc _ (hknown x hx (by simp [hw]))]
      exact h.loop x hx w hw

theorem awakeInv_switch {s s' : System} {next : Ptr} (h : AwakeInv s)
    (hc : Closed { s' with inIrq := false })
    (hswitch : schedulerSwitch { s with schedulePending := false } = some (next, s')) :
    AwakeInv { s' with inIrq := false } := by
  have hs := schedulerSwitch_switched (closed_pending h.closed false) hswitch
  have hproc : s'.proc = s.proc := by rw [schedulerSwitch_proc hswitch]
  refine h.of_states hc ⟨hs.thrds, hs.procs, hs.process, hs.parent, hs.pid, hs.thread⟩
    (sameStates_of_proc fun p _ => congrFun hproc p) (fun t _ => ?_) (.inl rfl)
  have hctx : ctx { s' with inIrq := false } t = ctx s t := hs.ctx t
  rw [hctx]
  split
  case isTrue heq => rw [heq, ctx_curr]
  case isFalse => rfl

/-- **One step** without reuse. -/
theorem awakeInv_step {e : Event} {s s' : System} (h : AwakeInv s)
    (hstep : Guarded NoReuse SysStep s e s') : AwakeInv s' := by
  obtain ⟨hreuse, hstep⟩ := hstep
  have hc := closed_step h.closed hreuse hstep
  cases hstep with
  | spawn _ _ hfree hp ht _ _ _ hspawn =>
    exact awakeInv_spawn h hp.1 (spawn_newProcess h.closed hfree hp ht hreuse hspawn) hc
  | spawnFailed _ _ hfree =>
    obtain ⟨-, hproc⟩ := overwrite_known _ _ hfree hreuse
    exact h.of_quiet hc (quiet_overwrite hfree hreuse) hproc (.inl rfl)
  | exit hrun => exact awakeInv_exit h hrun hc
  | wait hrun _ hwait => exact awakeInv_wait h hrun hc hwait
  | waitEnds hrun =>
    exact h.of_quiet hc (quiet_globals s _ _ _ _) (fun _ _ => rfl)
      (.inr ⟨by simp [hrun], fun _ heq => by cases heq⟩)
  | waitStatement hrun _ hstmt hstep =>
    obtain ⟨hr, hstates, hctx, w', stmt', hrun', -⟩ := waitStatement_same h.closed hrun hstmt hstep
    exact h.of_states hc hr hstates hctx (.inr ⟨by simp [hrun], fun _ heq => by simp [hrun'] at heq⟩)
  | waitReturn hrun _ hstep =>
    obtain rfl := Option.some.inj hstep
    exact h.of_quiet hc (quiet_globals s _ _ _ _) (fun _ _ => rfl)
      (.inr ⟨by simp [hrun], fun _ heq => by cases heq⟩)
  | ttyRead hrun =>
    refine h.of_quiet hc (quiet_ttyReadLoop s _) (fun p _ => ?_) (.inr ⟨by simp [hrun], ?_⟩)
    · rw [ttyReadLoop_proc]
    · intro w hw
      have hcall := ttyReadLoop_call s ‹_›
      rw [hw] at hcall
      cases hcall
  | ttyResume hrun =>
    refine h.of_quiet hc ((quiet_threadState s _ _).trans (quiet_ttyReadLoop _ _)) (fun p _ => ?_)
      (.inr ⟨by simp [hrun], ?_⟩)
    · rw [ttyResume, ttyReadLoop_proc, setThread_proc]
    · intro w hw
      have hcall := ttyReadLoop_call (setThread s s.currThread fun r => { r with state := .running }) ‹_›
      rw [← ttyResume, hw] at hcall
      cases hcall
  | @irq src =>
    refine h.of_quiet hc ((quiet_irqHandler s src).trans (quiet_globals _ _ _ _ _)) (fun p _ => ?_) ?_
    · dsimp only
      rw [irqHandler_proc]
    · cases hrun : s.running with
      | ttyHalted len => exact .inr ⟨by simp, fun _ heq => by cases heq⟩
      | user | kernel | exitLoop | waitLoop | waitTail | ttyWoken => exact .inl rfl
  | irqReturn => exact h.of_quiet hc (quiet_globals s _ _ _ _) (fun _ _ => rfl) (.inl rfl)
  | switch _ _ _ hswitch => exact awakeInv_switch h hc hswitch

/-! ## Runs -/

theorem Booted.awakeInv {b : Boot} {s : System} (h : Booted b s) : AwakeInv s := by
  have hwait := h.waitInv
  obtain ⟨cidle, cmain, cinit⟩ := h.ctx
  refine ⟨hwait.closed, hwait.owner, hwait.user, fun t ht => .of_ne fun w hw => ?_⟩
  simp only [h.known.1, List.mem_cons, List.not_mem_nil, or_false] at ht
  rcases ht with rfl | rfl | rfl
  · simp [cinit] at hw
  · simp [cmain] at hw
  · simp [cidle] at hw

/-- **Wake-ups.**  In a run from boot in which no freed memory is handed out
again, no process waits for a child that is dead. -/
theorem no_lost_wake {b : Boot} {s₀ s : System} {es : List Event} (hboot : kmain b = some s₀)
    (hrun : Run (Guarded NoReuse SysStep) s₀ es s) : NoLostWake s := by
  have h₀ : AwakeInv s₀ := (kmain_booted hboot).awakeInv
  exact (hrun.invariant (fun _ _ _ h hstep => awakeInv_step h hstep) h₀).noLostWake

/-- The run of `oneChild` up to the child's exit. -/
def oneExit : List Choice :=
  tick ++ [.spawn 0x50 0x60 0x3000, .wait 2 0x1000, .irq .other, .switch, .exit 7]

theorem oneExit_wakes : ∃ s₀ es s, kmain smallBoot = some s₀ ∧
    Run (Guarded NoReuse SysStep) s₀ es s ∧ (s.proc 0x50).state = .dead ∧ NoLostWake s := by
  have hplay : ((kmain smallBoot).bind fun s₀ => (playGuarded NoReuse s₀ oneExit).map
      fun r => (r.2.proc 0x50).state) = some .dead := by decide +kernel
  obtain ⟨s₀, hboot, hplay⟩ := Option.bind_eq_some_iff.mp hplay
  obtain ⟨⟨es, s⟩, hplay, hdead⟩ := Option.map_eq_some_iff.mp hplay
  have hrun := playGuarded_run hplay
  exact ⟨s₀, es, s, hboot, hrun, hdead, no_lost_wake hboot hrun⟩

/-- Init reaps a child that has not exited, as in `twoChildren`, and the next
child gets its process but another thread.  The two threads of that process
wait for one child each, and the child of the first exits in between. -/
def sharedProcess : List Choice :=
  twoChildren ++ [.spawn 0x50 0x90 0x5000] ++
    tick ++ [.spawn 0xa0 0xb0 0x6000, .spawn 0xc0 0xd0 0x7000] ++
    tick ++ tick ++ [.wait 5 0x1000, .irq .other, .switch] ++
    [.exit 0, .irq .other, .switch] ++ tick ++ tick ++ tick ++ tick ++ [.wait 6 0x1000]

/-- The thread of the process waits in `sys_wait` for a child that is dead. -/
theorem sharedProcess_loses : ∃ s₀ es s, kmain smallBoot = some s₀ ∧ Run SysStep s₀ es s ∧
    ¬ NoLostWake s := by
  obtain ⟨s₀, es, s, hboot, hrun, hP⟩ := playBoot_run sharedProcess
    (fun _ s => decide (0x90 ∈ knownThrds s ∧ ctx s 0x90 = .waitLoop ⟨5, 0x1000, 0xa0, none⟩ ∧
      (s.proc (s.thread 0x90).process).state = .waiting ∧ (s.proc 0xa0).state = .dead))
    (by decide +kernel)
  obtain ⟨hknown, hctx, hwaiting, hdead⟩ := of_decide_eq_true hP
  exact ⟨s₀, es, s, hboot, hrun, fun h => h 0x90 hknown _ hctx hwaiting hdead⟩

end FrogKernel.Process
