import FrogKernel.Userspace.Reaping

/-!
# Dead and blocked threads

`scheduler_switch` sets the thread it leaves to `THREAD_READY`, whatever its
state was.  `asleep_iff`: dead threads stay dead and blocked ones wait for a
wake-up exactly in the runs that only switch away from a ready or running
thread.
-/

namespace FrogKernel.Process

open FrogKernel.Runs FrogKernel.Tty

/-! ## What a history says -/

/-- The event sets thread `x` to `THREAD_BLOCKED`, by its own code. -/
def Event.blocks : Event → Ptr → Prop
  | .wait t true, x => t = x
  | .ttyRead t true, x => t = x
  | _, _ => False

/-- The event sets thread `x` to `THREAD_READY`, by code other than the
scheduler's. -/
def Event.wakes : Event → Ptr → Prop
  | .exit _ _ _ woken, x => woken = x
  | .irq woken, x => woken = x
  | _, _ => False

def Exited (es : List Event) (t : Ptr) : Prop := ∃ pid code woken, .exit t pid code woken ∈ es

def Asleep (es : List Event) (t : Ptr) : Prop :=
  ∃ past e rest, es = past ++ e :: rest ∧ e.blocks t ∧ ∀ e' ∈ rest, ¬ e'.wakes t

/-- No switch goes to a thread that has `P` before it. -/
def NeverTo (P : List Event → Ptr → Prop) (es : List Event) : Prop :=
  ∀ past old t rest, es = past ++ .switch old t :: rest → ¬ P past t

def Runnable (v : ThreadState) : Prop := v = .ready ∨ v = .running

/-- The step does not make a blocked or dead thread ready. -/
def KeepsAsleep (s s' : System) : Prop :=
  ∀ t, ¬ Runnable (s.thread t).state → (s'.thread t).state ≠ .ready

/-- A switch leaves a thread that is ready or running. -/
def LeavesRunnable (s : System) : Event → Prop
  | .switch _ _ => Runnable (s.thread s.currThread).state
  | _ => True

theorem Exited.snoc {es : List Event} {e : Event} {t : Ptr} (h : Exited (es ++ [e]) t) :
    Exited es t ∨ ∃ pid code woken, e = .exit t pid code woken := by
  obtain ⟨pid, code, woken, hmem⟩ := h
  rcases List.mem_append.mp hmem with hmem | hmem
  · exact Or.inl ⟨pid, code, woken, hmem⟩
  · exact Or.inr ⟨pid, code, woken, (List.mem_singleton.mp hmem).symm⟩

theorem Asleep.snoc {es : List Event} {e : Event} {t : Ptr} (h : Asleep (es ++ [e]) t) :
    e.blocks t ∨ Asleep es t ∧ ¬ e.wakes t := by
  obtain ⟨past, x, rest, heq, hblocks, hwakes⟩ := h
  rcases snoc_eq heq with ⟨-, -, rfl⟩ | ⟨rest', rfl, rfl⟩
  · exact Or.inl hblocks
  · refine Or.inr ⟨⟨past, x, rest', rfl, hblocks, fun e' he' => ?_⟩, ?_⟩
    · exact hwakes e' (List.mem_append_left _ he')
    · exact hwakes e (by simp)

theorem NeverTo.snoc {P : List Event → Ptr → Prop} {es : List Event} {e : Event}
    (h : NeverTo P es) (he : ∀ old t, e = .switch old t → ¬ P es t) : NeverTo P (es ++ [e]) := by
  intro past old t rest heq
  rcases snoc_eq heq with ⟨-, rfl, rfl⟩ | ⟨rest', -, rfl⟩
  · exact he old t rfl
  · exact h past old t rest' rfl

/-! ## The invariant -/

/-- Thread `t` is blocked in its `hlt`, and the next interrupt ends in
`scheduler_switch`. -/
structure Sleeping (s : System) (t : Ptr) : Prop where
  curr : t = s.currThread
  state : (s.thread t).state = .blocked
  pending : s.schedulePending = true
  halted : (∃ w, s.running = .waitLoop w) ∨ (∃ len, s.running = .ttyHalted len ∧ s.inIrq = false) ∨
    ∃ len, s.running = .ttyWoken len ∧ s.inIrq = true

/-- Before the first exit. -/
structure Live (past : List Event) (s : System) : Prop where
  unreaped : Unreaped s
  exited : ∀ t, ¬ Exited past t
  alive : ∀ p ∈ knownProcs s, (s.proc p).state ≠ .dead
  owner : ∀ p ∈ knownProcs s, (s.thread (s.proc p).thread).process = p
  idle : ctx s s.idleThread = .kernel
  idleState : Runnable (s.thread s.idleThread).state
  user : ∀ t ∈ knownThrds s, ctx s t ≠ .kernel → (s.thread t).process ≠ 0
  loop : ∀ t ∈ knownThrds s, ∀ w, ctx s t = .waitLoop w →
    (s.proc (s.thread t).process).state = .waiting
  tail : ∀ t ∈ knownThrds s, ∀ w stmt sti, ctx s t ≠ .waitTail w stmt sti
  asleep : ∀ t, Asleep past t → Sleeping s t

/-- After it: the dead thread goes on in its loop. -/
structure Halted (s : System) : Prop where
  closed : Closed s
  running : s.running = .exitLoop
  state : (s.thread s.currThread).state = .dead
  curr : s.currThread ≠ s.idleThread

theorem Live.curr_ne {past : List Event} {s : System} (h : Live past s) (hrun : s.running ≠ .kernel) :
    s.currThread ≠ s.idleThread := by
  intro heq
  apply hrun
  rw [← ctx_curr, heq]
  exact h.idle

theorem Live.running_ne {past : List Event} {s : System} (h : Live past s) (w : WaitCall)
    (stmt : WaitStmt) (sti : Bool) : s.running ≠ .waitTail w stmt sti := by
  have htail := h.tail s.currThread h.unreaped.closed.curr w stmt sti
  rwa [ctx_curr] at htail

theorem Live.of_quiet {past : List Event} {e : Event} {s s' : System} (h : Live past s)
    (hu : Unreaped s') (hq : Quiet s s') (he : ∀ t pid code woken, e ≠ .exit t pid code woken)
    (hstate : ∀ p ∈ knownProcs s,
      (s'.proc p).state = (s.proc p).state ∨ (s'.proc p).state = .waiting)
    (hidle : Runnable (s'.thread s.idleThread).state)
    (hrun : s'.running = s.running ∨ s.running ≠ .kernel ∧
      (∀ w, s'.running = .waitLoop w → (s'.proc s.currProcess).state = .waiting) ∧
      ∀ w stmt sti, s'.running ≠ .waitTail w stmt sti)
    (hasleep : ∀ t, Asleep (past ++ [e]) t → Sleeping s' t) : Live (past ++ [e]) s' := by
  have hc := h.unreaped.closed
  have hnull : ∀ t ∈ knownThrds s, ctx s t ≠ .kernel → (s.thread t).process ∈ knownProcs s :=
    fun t ht hctx => (hc.process t ht).resolve_left (h.user t ht hctx)
  refine ⟨hu, fun t ht => ?_, fun p hp => ?_, fun p hp => ?_, ?_, ?_, fun t ht hctx => ?_,
    fun t ht w hctx => ?_, fun t ht w stmt sti hctx => ?_, hasleep⟩
  · rcases ht.snoc with hold | ⟨pid, code, woken, hnew⟩
    · exact h.exited t hold
    · exact he t pid code woken hnew
  · have hp := (hq.procs p).mp hp
    rcases hstate p hp with heq | heq
    · rw [heq]
      exact h.alive p hp
    · rw [heq]
      simp
  · have hp := (hq.procs p).mp hp
    rw [hq.thread p hp, hq.process _ (hc.thread p hp)]
    exact h.owner p hp
  · rw [hq.idle, hq.ctx_eq hc.idle]
    split
    case isTrue heq =>
      rcases hrun with hrun | ⟨hne, -⟩
      · rw [hrun, ← ctx_curr, ← heq]
        exact h.idle
      · exact absurd heq.symm (h.curr_ne hne)
    case isFalse => exact h.idle
  · rw [hq.idle]
    exact hidle
  · have ht := (hq.thrds t).mp ht
    rw [hq.process t ht]
    rw [hq.ctx_eq ht] at hctx
    refine h.user t ht ?_
    split at hctx
    case isTrue heq =>
      rw [heq, ctx_curr]
      rcases hrun with hrun | ⟨hne, -⟩
      · rwa [hrun] at hctx
      · exact hne
    case isFalse => exact hctx
  · have ht := (hq.thrds t).mp ht
    rw [hq.process t ht]
    rw [hq.ctx_eq ht] at hctx
    have hkeep : ctx s t = .waitLoop w → (s'.proc (s.thread t).process).state = .waiting := by
      intro hctx
      rcases hstate _ (hnull t ht (by simp [hctx])) with heq | heq
      · rw [heq]
        exact h.loop t ht w hctx
      · exact heq
    split at hctx
    case isTrue heq =>
      rcases hrun with hrun | ⟨-, hloop, -⟩
      · refine hkeep ?_
        rw [heq, ctx_curr, ← hrun, hctx]
      · rw [heq, ← hc.currProcess]
        exact hloop w hctx
    case isFalse => exact hkeep hctx
  · have ht := (hq.thrds t).mp ht
    rw [hq.ctx_eq ht] at hctx
    split at hctx
    · rcases hrun with hrun | ⟨-, -, htail⟩
      · exact h.running_ne w stmt sti (hrun ▸ hctx)
      · exact htail w stmt sti hctx
    case isFalse => exact h.tail t ht w stmt sti hctx

/-! ## The steps -/

/-- What `scheduler_switch` does to the states. -/
theorem schedulerSwitch_state {s s' : System} {next : Ptr}
    (hswitch : schedulerSwitch s = some (next, s')) (t : Ptr) :
    (s'.thread t).state = (s.thread t).state ∨ (s'.thread t).state = .running ∨
      t = s.currThread ∧ next ≠ s.currThread ∧ (s'.thread t).state = .ready := by
  obtain ⟨-, ⟨-, rfl⟩ | ⟨hne, rfl⟩⟩ := schedulerSwitch_some hswitch
  · rw [saveEsp_thread]
    exact Or.inl rfl
  · have hthread : ((switchTo (saveEsp s) s.currThread next).thread t).state =
        if t = next then .running else if t = s.currThread then .ready else (s.thread t).state := by
      unfold switchTo
      simp only [setThread_thread, saveEsp_thread]
      split
      · rfl
      · split <;> rfl
    rw [hthread]
    split
    · exact Or.inr (Or.inl rfl)
    · split
      case isTrue heq => exact Or.inr (Or.inr ⟨heq, hne, rfl⟩)
      case isFalse => exact Or.inl rfl

theorem schedulerSwitch_old {s s' : System} {next : Ptr}
    (hswitch : schedulerSwitch s = some (next, s')) (hne : next ≠ s.currThread) :
    (s'.thread s.currThread).state = .ready := by
  obtain ⟨-, ⟨heq, -⟩ | ⟨-, rfl⟩⟩ := schedulerSwitch_some hswitch
  · exact absurd heq hne
  · unfold switchTo
    simp only [setThread_thread, if_neg (Ne.symm hne), if_true]

theorem schedulerSwitch_proc {s s' : System} {next : Ptr}
    (hswitch : schedulerSwitch s = some (next, s')) : s'.proc = s.proc := by
  obtain ⟨-, ⟨-, rfl⟩ | ⟨-, rfl⟩⟩ := schedulerSwitch_some hswitch
  · rfl
  · rfl

/-- A switch goes to the idle thread or to a runnable one. -/
theorem schedulerSwitch_next {s s' : System} (h : Closed s) {next : Ptr}
    (hswitch : schedulerSwitch s = some (next, s')) :
    next = s.idleThread ∨ Runnable (s.thread next).state := by
  obtain ⟨hnext, -⟩ := schedulerSwitch_some hswitch
  have hsaved : Closed (saveEsp s) := by
    refine h.of_sameLinks (sameLinks_saveEsp s) h.curr ?_ fun t ht w hw => ?_
    · change s.currProcess = ((saveEsp s).thread s.currThread).process
      rw [saveEsp_thread]
      exact h.currProcess
    · rw [ctx_saveEsp] at hw
      exact h.child t ht w hw
  have hstate := (schedulerNext_some hsaved hnext).2
  rwa [saveEsp_thread] at hstate

theorem closed_pending {s : System} (h : Closed s) (pending : Bool) :
    Closed { s with schedulePending := pending } :=
  h.of_quiet (quiet_globals s _ _ _ _) fun w hw =>
    h.child _ h.curr w (by rw [ctx_curr]; exact hw)

theorem live_spawn {past : List Event} {e : Event} {s s' : System} (h : Live past s)
    (hu : Unreaped s') {p t pageDir : Ptr} {reused : List Ptr} {mt : Ptr → ThreadT}
    {mp : Ptr → ProcessT} (hfree : Unallocated s reused) (hp : Fresh s p) (ht : Fresh s t)
    (hspawn : sysSpawn (overwrite s reused mt mp) p t pageDir = some s')
    (he : ∀ t pid code woken, e ≠ .exit t pid code woken)
    (hasleep : ∀ t, ¬ Asleep (past ++ [e]) t) : Live (past ++ [e]) s' := by
  have hc := h.unreaped.closed
  have hno : ∀ x : Ptr, x ∉ s.freedThrds ∧ x ∉ s.freedProcs := by
    simp [h.unreaped.freedThrds, h.unreaped.freedProcs]
  obtain ⟨hq, hup, hut, tail, -, hs⟩ := spawn_step hc hfree hp ht (fun x _ => hno x) hspawn
  obtain ⟨hsameT, hsameP⟩ := overwrite_known mt mp hfree fun x _ => hno x
  have hup : Unknown (overwrite s reused mt mp) p := ⟨hup.thrd, hup.proc⟩
  have hut : Unknown (overwrite s reused mt mp) t := ⟨hut.thrd, hut.proc⟩
  have hT := hs.mem_thrds hup hut
  have hthread : ∀ x ∈ knownThrds s,
      s'.thread x = { s.thread x with next := (s'.thread x).next } := by
    intro x hx
    rw [hs.thread_known hut hx, hsameT x hx]
  have hproc : ∀ x ∈ knownProcs s, s'.proc x = s.proc x := fun x hx =>
    (hs.proc_known hup hx).trans (hsameP x hx)
  have hctx : ∀ x, x = t ∨ x ∈ knownThrds s → ctx s' x = if x = t then .user else ctx s x := by
    intro x hx
    rw [hs.ctx_eq hut hc.curr x hx]
    split
    · rfl
    case isFalse hxt =>
      rw [hq.ctx_eq (hx.resolve_left hxt)]
      split
      case isTrue heq => rw [heq, ctx_curr]; rfl
      case isFalse => rfl
  have hold : ∀ {x}, x ∈ knownThrds s → x ≠ t := fun hx heq => hut.thrd (heq ▸ hx)
  refine ⟨hu, fun x hx => ?_, fun x hx => ?_, fun x hx => ?_, ?_, ?_, fun x hx hkernel => ?_,
    fun x hx w hloop => ?_, fun x hx w stmt sti htail => ?_, fun x hx => absurd hx (hasleep x)⟩
  · rcases hx.snoc with hx | ⟨pid, code, woken, hx⟩
    · exact h.exited x hx
    · exact he x pid code woken hx
  · rcases (hs.mem_procs hup hut x).mp hx with rfl | hx
    · simp [hs.proc]
    · rw [hproc x hx]
      exact h.alive x hx
  · rcases (hs.mem_procs hup hut x).mp hx with rfl | hx
    · rw [hs.proc, if_pos rfl, hs.thread, if_pos rfl]
    · rw [hproc x hx, hthread _ (hc.thread x hx)]
      exact h.owner x hx
  · have hidle : s.idleThread ∈ knownThrds s := hc.idle
    rw [hs.idle]
    change ctx s' s.idleThread = _
    rw [hctx _ (Or.inr hidle), if_neg (hold hidle)]
    exact h.idle
  · rw [hs.idle]
    change Runnable (s'.thread s.idleThread).state
    rw [hthread _ hc.idle]
    exact h.idleState
  · rcases (hT x).mp hx with rfl | hx
    · rw [hs.thread, if_pos rfl]
      exact hp.1
    · rw [hctx x (Or.inr hx), if_neg (hold hx)] at hkernel
      rw [hthread x hx]
      exact h.user x hx hkernel
  · rw [hctx x ((hT x).mp hx)] at hloop
    split at hloop
    · cases hloop
    case isFalse hxt =>
      have hx := ((hT x).mp hx).resolve_left hxt
      have hne := h.user x hx (by simp [hloop])
      rw [hthread x hx, hproc _ ((hc.process x hx).resolve_left hne)]
      exact h.loop x hx w hloop
  · rw [hctx x ((hT x).mp hx)] at htail
    split at htail
    · cases htail
    case isFalse hxt => exact h.tail x (((hT x).mp hx).resolve_left hxt) w stmt sti htail

theorem live_switch {past : List Event} {s s' : System} (h : Live past s) {next : Ptr}
    (hu : Unreaped { s' with inIrq := false }) (hawake : Runnable (s.thread s.currThread).state)
    (hswitch : schedulerSwitch { s with schedulePending := false } = some (next, s')) :
    Live (past ++ [.switch s.currThread next]) { s' with inIrq := false } := by
  have hs := schedulerSwitch_switched (closed_pending h.unreaped.closed false) hswitch
  have hproc : s'.proc = s.proc := by rw [schedulerSwitch_proc hswitch]
  have hctx : ∀ t, ctx { s' with inIrq := false } t = ctx s t := hs.ctx
  have hknown : ∀ t, t ∈ knownThrds { s' with inIrq := false } ↔ t ∈ knownThrds s := hs.thrds
  have hprocess : ∀ t ∈ knownThrds s, (s'.thread t).process = (s.thread t).process := hs.process
  refine ⟨hu, fun t ht => ?_, fun p hp => ?_, fun p hp => ?_, ?_, ?_, fun t ht hkernel => ?_,
    fun t ht w hloop => ?_, fun t ht w stmt sti htail => ?_, fun t ht => ?_⟩
  · rcases ht.snoc with ht | ⟨pid, code, woken, ht⟩
    · exact h.exited t ht
    · cases ht
  · rw [show ({ s' with inIrq := false } : System).proc = s.proc from hproc]
    exact h.alive p ((hs.procs p).mp hp)
  · have hp := (hs.procs p).mp hp
    change (s'.thread (s'.proc p).thread).process = p
    rw [hproc, hprocess _ (h.unreaped.closed.thread p hp)]
    exact h.owner p hp
  · rw [hctx]
    exact hs.idle ▸ h.idle
  · change Runnable (s'.thread s'.idleThread).state
    rw [show s'.idleThread = s.idleThread from hs.idle]
    rcases schedulerSwitch_state hswitch s.idleThread with heq | heq | ⟨-, -, heq⟩
    · rw [heq]
      exact h.idleState
    · exact Or.inr heq
    · exact Or.inl heq
  · have ht := (hknown t).mp ht
    rw [hctx] at hkernel
    change (s'.thread t).process ≠ 0
    rw [hprocess t ht]
    exact h.user t ht hkernel
  · have ht := (hknown t).mp ht
    rw [hctx] at hloop
    change (s'.proc (s'.thread t).process).state = _
    rw [hprocess t ht, hproc]
    exact h.loop t ht w hloop
  · rw [hctx] at htail
    exact h.tail t ((hknown t).mp ht) w stmt sti htail
  · rcases ht.snoc with hblocks | ⟨ht, -⟩
    · cases hblocks
    · have hsleep := h.asleep t ht
      rw [← hsleep.curr, hsleep.state] at hawake
      rcases hawake with hv | hv <;> cases hv

theorem Live.none_asleep {past : List Event} {s : System} (h : Live past s)
    (hrun : (∀ w, s.running ≠ .waitLoop w) ∧ (∀ len, s.running ≠ .ttyHalted len) ∧
      ∀ len, s.running = .ttyWoken len → s.inIrq = false) (t : Ptr) : ¬ Asleep past t := by
  obtain ⟨hloop, hhalted, hwoken⟩ := hrun
  intro ht
  rcases (h.asleep t ht).halted with ⟨w, hw⟩ | ⟨len, hlen, -⟩ | ⟨len, hlen, hirq⟩
  · exact hloop w hw
  · exact hhalted len hlen
  · simp [hwoken len hlen] at hirq

theorem Live.user_awake {past : List Event} {s : System} (h : Live past s)
    (hrun : s.running = .user) (t : Ptr) : ¬ Asleep past t :=
  h.none_asleep (by simp [hrun]) t

/-- A new event that blocks nobody. -/
theorem not_asleep_snoc {past : List Event} {e : Event} {t : Ptr} (hpast : ¬ Asleep past t)
    (he : ¬ e.blocks t) : ¬ Asleep (past ++ [e]) t := by
  intro ht
  rcases ht.snoc with hblocks | ⟨hold, -⟩
  · exact he hblocks
  · exact hpast hold

/-- The thread that ran in user code or in `tty_read` blocks. -/
theorem runnable_of_ne {past : List Event} {s s' : System} (h : Live past s)
    (hrun : s.running ≠ .kernel)
    (hthread : ∀ t, t ≠ s.currThread → (s'.thread t).state = (s.thread t).state) :
    Runnable (s'.thread s.idleThread).state := by
  rw [hthread _ (Ne.symm (h.curr_ne hrun))]
  exact h.idleState

theorem ttyReadLoop_thread (s : System) (len : Nat) (t : Ptr) (ht : t ≠ s.currThread) :
    ((ttyReadLoop s len).thread t).state = (s.thread t).state := by
  unfold ttyReadLoop
  split
  · simp only [setThread_thread, if_neg ht]
  · rfl

theorem live_ttyRead {past : List Event} {s s₁ : System} {len : Nat} (h : Live past s)
    (hrun : s.running ≠ .kernel) (hawake : ∀ t, ¬ Asleep past t)
    (hq₁ : Quiet s s₁) (hproc₁ : s₁.proc = s.proc) (hirq₁ : s₁.inIrq = false)
    (hthread₁ : ∀ t, t ≠ s.currThread → (s₁.thread t).state = (s.thread t).state)
    (hu : Unreaped (ttyReadLoop s₁ len)) :
    Live (past ++ [.ttyRead s.currThread (ttyReadLoop s₁ len).running.inTtyHalt])
      (ttyReadLoop s₁ len) := by
  have hcurr : s₁.currThread = s.currThread := hq₁.currThread
  refine h.of_quiet hu (hq₁.trans (quiet_ttyReadLoop s₁ len)) (by simp) (fun p _ => Or.inl ?_)
    (runnable_of_ne h hrun fun t ht => ?_) (Or.inr ⟨hrun, ?_, ?_⟩) fun t ht => ?_
  · rw [← hproc₁]
    unfold ttyReadLoop
    split <;> rfl
  · rw [ttyReadLoop_thread s₁ len t (by rwa [hcurr]), hthread₁ t ht]
  · unfold ttyReadLoop
    split <;> simp
  · unfold ttyReadLoop
    split <;> simp
  · have hblocks := ht.snoc.resolve_right fun hold => hawake t hold.1
    unfold ttyReadLoop at hblocks ⊢
    split at hblocks
    case isTrue hempty =>
      rw [if_pos hempty]
      obtain rfl : s.currThread = t := hblocks
      refine ⟨hcurr.symm, ?_, rfl, Or.inr (Or.inl ⟨len, rfl, hirq₁⟩)⟩
      simp only [setThread_thread, hcurr, if_true]
    case isFalse => exact hblocks.elim

/-- An interrupt changes the state of the thread it wakes only. -/
theorem irqHandler_state (s : System) (src : Irq) (t : Ptr) :
    ((irqHandler s src).thread t).state = (s.thread t).state ∨
      t = s.currThread ∧ irqWakes s src = t ∧ (s.thread t).state = .blocked ∧
        ((irqHandler s src).thread t).state = .ready := by
  cases src with
  | timer due =>
    rw [irqHandler]
    split <;> exact Or.inl rfl
  | keyboard c =>
    simp only [irqHandler, irqWakes]
    split
    case isTrue hwakes =>
      by_cases ht : t = s.currThread
      · refine Or.inr ⟨ht, ht.symm, ht ▸ hwakes.2, ?_⟩
        simp only [setThread_thread, if_pos ht]
      · refine Or.inl ?_
        simp only [setThread_thread, if_neg ht]
    case isFalse => exact Or.inl rfl
  | other => exact Or.inl rfl

theorem irqHandler_proc (s : System) (src : Irq) : (irqHandler s src).proc = s.proc := by
  cases src with
  | timer due =>
    rw [irqHandler]
    split <;> rfl
  | keyboard c =>
    simp only [irqHandler]
    split <;> rfl
  | other => rfl

theorem irqHandler_pending (s : System) (src : Irq) (h : s.schedulePending = true) :
    (irqHandler s src).schedulePending = true := by
  cases src with
  | timer due =>
    rw [irqHandler]
    split
    · rfl
    · exact h
  | keyboard c =>
    simp only [irqHandler]
    split
    · rfl
    · exact h
  | other => exact h

theorem live_irq {past : List Event} {s : System} {src : Irq} (h : Live past s)
    (hirq : s.inIrq = false)
    (hu : Unreaped { irqHandler s src with running := s.running.afterHlt, inIrq := true }) :
    Live (past ++ [.irq (irqWakes s src)])
      { irqHandler s src with running := s.running.afterHlt, inIrq := true } := by
  refine h.of_quiet hu ((quiet_irqHandler s src).trans (quiet_globals _ _ _ _ _)) (by simp)
    (fun p _ => Or.inl ?_) ?_ ?_ fun t ht => ?_
  · dsimp only
    rw [irqHandler_proc]
  · rcases irqHandler_state s src s.idleThread with heq | ⟨-, -, -, heq⟩
    · exact heq ▸ h.idleState
    · exact Or.inl heq
  · cases hrun : s.running with
    | ttyHalted len => exact Or.inr ⟨by simp, by simp [Cont.afterHlt], by simp [Cont.afterHlt]⟩
    | user | kernel | exitLoop | waitLoop | waitTail | ttyWoken => exact Or.inl rfl
  · rcases ht.snoc with hblocks | ⟨ht, hwakes⟩
    · exact hblocks.elim
    have hsleep := h.asleep t ht
    have hstate : ((irqHandler s src).thread t).state = (s.thread t).state :=
      (irqHandler_state s src t).resolve_right fun hw => hwakes hw.2.1
    refine ⟨hsleep.curr.trans (quiet_irqHandler s src).currThread.symm, ?_,
      irqHandler_pending s src hsleep.pending, ?_⟩
    · exact hstate.trans hsleep.state
    · rcases hsleep.halted with ⟨w, hw⟩ | ⟨len, hlen, -⟩ | ⟨len, -, hin⟩
      · exact Or.inl ⟨w, by simp only [hw, Cont.afterHlt]⟩
      · exact Or.inr (Or.inr ⟨len, by simp only [hlen, Cont.afterHlt], rfl⟩)
      · simp [hirq] at hin

/-- `sys_exit` leaves a dead thread in its loop. -/
theorem halted_exit {past : List Event} {s : System} (h : Live past s) (hrun : s.running = .user)
    (code : Nat) (hclosed : Closed (sysExit s code)) : Halted (sysExit s code) := by
  have hc := h.unreaped.closed
  have hq := quiet_sysExit s code
  have hne : s.currThread ≠ s.idleThread := h.curr_ne (by simp [hrun])
  have huser : s.currProcess ≠ 0 := by
    rw [hc.currProcess]
    exact h.user s.currThread hc.curr (by simp [hrun])
  refine ⟨hclosed, rfl, ?_, ?_⟩
  · rw [hq.currThread, sysExit_thread, if_neg, if_pos rfl]
    rintro ⟨hw, heq⟩
    -- the parent's thread belongs to the parent
    have hcurrent := (hc.currProcess ▸ hc.process _ hc.curr).resolve_left huser
    have hparent := (hc.parent _ hcurrent).resolve_left hw.1
    have howner := h.owner _ hparent
    apply hw.2.1
    rw [hc.currProcess, heq]
    exact howner.symm
  · rw [hq.currThread, hq.idle]
    exact hne

/-- **One step** before the first exit. -/
theorem live_step {past : List Event} {e : Event} {s s' : System} (h : Live past s)
    (hawake : LeavesRunnable s e) (hstep : SysStep s e s') :
    Live (past ++ [e]) s' ∨ Halted s' := by
  have hc := h.unreaped.closed
  have hno : ∀ x : Ptr, x ∉ s.freedThrds ∧ x ∉ s.freedProcs := by
    simp [h.unreaped.freedThrds, h.unreaped.freedProcs]
  have hu : e ≠ .waitStatement .freeThread → Unreaped s' := unreaped_step h.unreaped hstep
  cases hstep with
  | spawn hrun _ hfree hp ht _ _ _ hspawn =>
    exact Or.inl (live_spawn h (hu (by simp)) hfree hp ht hspawn (by simp)
      fun x => not_asleep_snoc (h.user_awake hrun x) (by simp [Event.blocks]))
  | @spawnFailed reused mt mp hrun _ hfree =>
    obtain ⟨hthread, hproc⟩ := overwrite_known mt mp hfree fun x _ => hno x
    refine Or.inl (h.of_quiet (hu (by simp)) (quiet_overwrite hfree fun x _ => hno x) (by simp)
      (fun p hp => Or.inl (by rw [hproc p hp])) ?_ (Or.inl rfl) fun t ht => ?_)
    · rw [hthread _ hc.idle]
      exact h.idleState
    · exact absurd ht (not_asleep_snoc (h.user_awake hrun t) (by simp [Event.blocks]))
  | exit hrun => exact Or.inr (halted_exit h hrun _ (hu (by simp)).closed)
  | wait hrun _ hwait =>
    have hq := quiet_sysWait hwait
    rcases sysWait_some hwait with rfl | ⟨w, hawaits, ⟨-, rfl⟩ | ⟨hdead, -⟩⟩
    · refine Or.inl (h.of_quiet h.unreaped hq (by simp) (fun _ _ => Or.inl rfl) h.idleState
        (Or.inl rfl) fun t ht => ?_)
      exact absurd ht (not_asleep_snoc (h.user_awake hrun t)
        (by simp [hrun, Cont.inWaitLoop, Event.blocks]))
    · refine Or.inl (h.of_quiet (hu (by simp)) hq (by simp) (fun p _ => ?_)
        (runnable_of_ne h (by simp [hrun]) fun t ht => ?_)
        (Or.inr ⟨by simp [hrun], fun _ _ => ?_, by simp [waitBlock]⟩) fun t ht => ?_)
      · simp only [waitBlock, setThread_proc, setProc_proc]
        split
        · exact Or.inr rfl
        · exact Or.inl rfl
      · simp only [waitBlock, setThread_thread]
        rw [if_neg]
        · rfl
        · exact ht
      · simp only [waitBlock, setThread_proc, setProc_proc, if_true]
      · have hblocks := ht.snoc.resolve_right fun hold => h.user_awake hrun t hold.1
        obtain rfl : s.currThread = t := hblocks
        refine ⟨rfl, ?_, rfl, Or.inl ⟨w, rfl⟩⟩
        change (if s.currThread = s.currThread then _ else _ : ThreadT).state = _
        rw [if_pos rfl]
    · have hchild := (uprocessFind_some hc hawaits.find hawaits.child).1
      exact absurd hdead (h.alive _ hchild)
  | @waitEnds w hrun _ hstate =>
    have hwaiting := h.loop s.currThread hc.curr w (by rw [ctx_curr, hrun])
    rw [← hc.currProcess] at hwaiting
    exact absurd hwaiting hstate
  | waitStatement hrun => exact absurd hrun (h.running_ne _ _ _)
  | waitReturn hrun => exact absurd hrun (h.running_ne _ _ _)
  | ttyRead hrun hirq =>
    exact Or.inl (live_ttyRead h (by simp [hrun]) (h.user_awake hrun) (Quiet.refl s) rfl hirq
      (fun _ _ => rfl) (hu (by simp)))
  | ttyResume hrun hirq =>
    refine Or.inl (live_ttyRead h (by simp [hrun]) (h.none_asleep (by simp [hrun, hirq]))
      (quiet_threadState s _ _) rfl hirq (fun t ht => ?_) (hu (by simp)))
    rw [setThread_thread, if_neg ht]
  | irq _ hirq => exact Or.inl (live_irq h hirq (hu (by simp)))
  | irqReturn _ hpending =>
    refine Or.inl (h.of_quiet (hu (by simp)) (quiet_globals s _ _ _ _) (by simp)
      (fun _ _ => Or.inl rfl) h.idleState (Or.inl rfl) fun t ht => ?_)
    refine absurd ht (not_asleep_snoc (fun hold => ?_) (by simp [Event.blocks]))
    have hsleep := h.asleep t hold
    rcases hpending with hp | h0
    · simp [hsleep.pending] at hp
    · exact hc.thrds_pos (h0 ▸ hc.curr)
  | switch _ _ _ hswitch => exact Or.inl (live_switch h (hu (by simp)) hawake hswitch)

/-- A dead thread only takes interrupts. -/
theorem halted_step {e : Event} {s s' : System} (h : Halted s) (hawake : LeavesRunnable s e)
    (hstep : SysStep s e s') : Halted s' ∧ (∀ old t, e ≠ .switch old t) := by
  have hrun := h.running
  have hc : NoReuse s e → Closed s' := fun hreuse => closed_step h.closed hreuse hstep
  cases hstep with
  | @irq src =>
    refine ⟨⟨hc trivial, by simp only [hrun, Cont.afterHlt], ?_, ?_⟩, by simp⟩
    · change ((irqHandler s src).thread (irqHandler s src).currThread).state = _
      rw [(quiet_irqHandler s src).currThread]
      rcases irqHandler_state s src s.currThread with heq | ⟨-, -, hblocked, -⟩
      · exact heq.trans h.state
      · simp [h.state] at hblocked
    · change (irqHandler s src).currThread ≠ (irqHandler s src).idleThread
      rw [(quiet_irqHandler s src).currThread, (quiet_irqHandler s src).idle]
      exact h.curr
  | irqReturn => exact ⟨⟨hc trivial, hrun, h.state, h.curr⟩, by simp⟩
  | switch =>
    rcases hawake with hv | hv
    · simp [h.state] at hv
    · simp [h.state] at hv
  | spawn hr | spawnFailed hr | exit hr | wait hr | waitEnds hr | waitStatement hr
  | waitReturn hr | ttyRead hr | ttyResume hr => simp [hrun] at hr

/-! ## Runs -/

theorem Booted.live {b : Boot} {s : System} (h : Booted b s) : Live [] s := by
  obtain ⟨hT, hP⟩ := h.known
  obtain ⟨cidle, cmain, cinit⟩ := h.ctx
  obtain ⟨_, hidle⟩ := h.idle
  obtain ⟨_, hinit⟩ := h.initThread
  refine ⟨h.unreaped, ?_, ?_, ?_, ?_, ?_, ?_, ?_, ?_, ?_⟩
  · rintro t ⟨pid, code, woken, hmem⟩
    cases hmem
  · simp [hP, h.init]
  · simp [hP, h.init, hinit]
  · rw [h.idleThread, cidle]
  · rw [h.idleThread, hidle]
    exact Or.inl rfl
  · simp [hT, cidle, cmain, hinit, b.nonzero.2.2.2]
  · simp [hT, cidle, cmain, cinit]
  · simp [hT, cidle, cmain, cinit]
  · rintro t ⟨past, e, rest, heq, -⟩
    simp at heq

/-- The events so far and the state they led to. -/
structure Watched (past : List Event) (s : System) : Prop where
  dead : NeverTo Exited past
  blocked : NeverTo Asleep past
  state : Live past s ∨ Halted s

theorem watched_step {past : List Event} {e : Event} {s s' : System} (h : Watched past s)
    (hstep : Guarded LeavesRunnable SysStep s e s') : Watched (past ++ [e]) s' := by
  obtain ⟨hawake, hstep⟩ := hstep
  rcases h.state with hlive | hhalted
  · refine ⟨h.dead.snoc fun old t _ => hlive.exited t, h.blocked.snoc fun old t he ht => ?_,
      live_step hlive hawake hstep⟩
    subst he
    have hsleep := hlive.asleep t ht
    rw [LeavesRunnable, ← hsleep.curr, hsleep.state] at hawake
    rcases hawake with hv | hv <;> cases hv
  · obtain ⟨hhalted', hno⟩ := halted_step hhalted hawake hstep
    exact ⟨h.dead.snoc fun old t he => absurd he (hno old t),
      h.blocked.snoc fun old t he => absurd he (hno old t), Or.inr hhalted'⟩

theorem Watched.closed {past : List Event} {s : System} (h : Watched past s) : Closed s :=
  h.state.elim (fun hlive => hlive.unreaped.closed) Halted.closed

theorem Watched.idle {past : List Event} {s : System} (h : Watched past s) :
    s.currThread ≠ s.idleThread ∨ Runnable (s.thread s.currThread).state := by
  rcases h.state with hlive | hhalted
  · by_cases heq : s.currThread = s.idleThread
    · exact Or.inr (heq ▸ hlive.idleState)
    · exact Or.inl heq
  · exact Or.inl hhalted.curr

theorem watched_run {b : Boot} {s₀ s : System} {es : List Event} (hboot : kmain b = some s₀)
    (hrun : Run (Guarded LeavesRunnable SysStep) s₀ es s) : Watched es s := by
  have h₀ : Watched [] s₀ := ⟨by simp [NeverTo], by simp [NeverTo], Or.inl (kmain_booted hboot).live⟩
  simpa using hrun.history (I := Watched) (fun _ _ _ _ => watched_step) h₀

/-- A switch away from a blocked or dead thread makes it ready. -/
theorem keepsAsleep_iff {past : List Event} {s s' : System} {old next : Ptr} (h : Watched past s)
    (hstep : SysStep s (.switch old next) s') :
    KeepsAsleep s s' ↔ LeavesRunnable s (.switch old next) := by
  cases hstep with
  | @switch t _ _ _ _ hswitch =>
  constructor
  · intro hkeeps
    by_contra hnot
    have hc1 := closed_pending h.closed false
    have hne : next ≠ s.currThread := by
      rintro rfl
      rcases schedulerSwitch_next hc1 hswitch with hidle | hstate
      · exact h.idle.elim (fun hne => hne hidle) hnot
      · exact hnot hstate
    have hready := schedulerSwitch_old hswitch hne
    exact hkeeps s.currThread hnot hready
  · intro hleaves x hx hready
    change (t.thread x).state = .ready at hready
    rcases schedulerSwitch_state hswitch x with heq | heq | ⟨hcurr, -⟩
    · exact hx (Or.inl (heq.symm.trans hready))
    · simp [heq] at hready
    · exact hx (hcurr ▸ hleaves)

/-- A run up to the first switch that leaves a blocked or dead thread. -/
theorem watched_or {b : Boot} {s₀ s : System} {es : List Event} (hboot : kmain b = some s₀)
    (hrun : Run SysStep s₀ es s) :
    Watched es s ∨ ∃ past e rest t, es = past ++ e :: rest ∧ Run SysStep s₀ past t ∧
      Run SysStep t (e :: rest) s ∧ Watched past t ∧ ¬ LeavesRunnable t e := by
  rcases hrun.guarded_or LeavesRunnable with hall | ⟨past, e, rest, t, heq, hpast, hrest, hfail⟩
  · exact Or.inl (watched_run hboot hall)
  · exact Or.inr ⟨past, e, rest, t, heq, hpast.of_guarded, hrest, watched_run hboot hpast, hfail⟩

/-- **Dead and blocked threads.**  No switch goes to a dead thread or to a
blocked one that nobody woke, and no switch makes such a thread ready, exactly
when every switch of the run leaves a thread that is ready or running. -/
theorem asleep_iff {b : Boot} {s₀ s : System} {es : List Event} (hboot : kmain b = some s₀)
    (hrun : Run SysStep s₀ es s) :
    (NeverTo Exited es ∧ NeverTo Asleep es ∧
      ∀ past old next rest t t', es = past ++ .switch old next :: rest → Run SysStep s₀ past t →
        SysStep t (.switch old next) t' → Run SysStep t' rest s → KeepsAsleep t t') ↔
    ∀ past e rest t, es = past ++ e :: rest → Run SysStep s₀ past t →
      Run SysStep t (e :: rest) s → LeavesRunnable t e := by
  constructor
  · rintro ⟨-, -, hkeeps⟩ past e rest t heq hpast hrest
    by_contra hfail
    obtain ⟨past, e, rest, t, heq, hpast, hrest, hw, hfail⟩ : ∃ past e rest t,
        es = past ++ e :: rest ∧ Run SysStep s₀ past t ∧ Run SysStep t (e :: rest) s ∧
          Watched past t ∧ ¬ LeavesRunnable t e := by
      rcases watched_or hboot hpast with hw | ⟨past', e', rest', u, rfl, hpast', hrest', hw, hfail'⟩
      · exact ⟨past, e, rest, t, heq, hpast, hrest, hw, hfail⟩
      · exact ⟨past', e', rest' ++ e :: rest, u, by simpa using heq, hpast', hrest'.trans hrest, hw,
          hfail'⟩
    cases e with
    | switch old next =>
      obtain ⟨t', hstep, hrest⟩ := hrest.of_cons
      exact hfail ((keepsAsleep_iff hw hstep).mp
        (hkeeps past old next rest t t' heq hpast hstep hrest))
    | _ => exact hfail trivial
  · intro hleaves
    have hwatched : ∀ past rest t, es = past ++ rest → Run SysStep s₀ past t →
        Run SysStep t rest s → Watched past t := by
      intro past rest t heq hpast hrest
      rcases watched_or hboot hpast with hw | ⟨past', e', rest', u, rfl, hpast', hrest', -, hfail⟩
      · exact hw
      · exact absurd (hleaves past' e' (rest' ++ rest) u (by simpa using heq) hpast'
          (hrest'.trans hrest)) hfail
    have hw := hwatched es [] s (by simp) hrun (.refl s)
    refine ⟨hw.dead, hw.blocked, fun past old next rest t t' heq hpast hstep hrest => ?_⟩
    exact (keepsAsleep_iff (hwatched past _ t heq hpast (.step hstep hrest)) hstep).mpr
      (hleaves past _ rest t heq hpast (.step hstep hrest))

/-- The first tick switches from the main thread, which is running. -/
theorem firstTick_asleep : ∃ s₀ s, kmain smallBoot = some s₀ ∧
    Run SysStep s₀ [.irq 0, .switch 0x20 0x30] s ∧
    ∀ t t', Run SysStep s₀ [.irq 0] t → SysStep t (.switch 0x20 0x30) t' → Run SysStep t' [] s →
      KeepsAsleep t t' := by
  obtain ⟨s₀, es, s, hboot, hrun, hP⟩ := playBoot_run tick
    (fun es _ => decide (es = [.irq 0, .switch 0x20 0x30])) (by decide +kernel)
  obtain rfl := of_decide_eq_true hP
  refine ⟨s₀, s, hboot, hrun, fun t t' hpast hstep hrest => ?_⟩
  refine ((asleep_iff hboot hrun).mpr fun past e rest u heq hpast _ => ?_).2.2 [.irq 0] 0x20 0x30 []
    t t' rfl hpast hstep hrest
  rcases past with _ | ⟨x, _ | ⟨y, past⟩⟩
  · obtain ⟨rfl, -⟩ := List.cons.inj heq
    exact trivial
  · simp only [List.singleton_append, List.cons.injEq] at heq
    obtain ⟨rfl, rfl, -⟩ := heq
    obtain ⟨v, hirq, hv⟩ := hpast.of_cons
    cases hv
    obtain ⟨_, hmain⟩ := (kmain_booted hboot).main
    have hcurr : s₀.currThread = 0x20 := (kmain_booted hboot).currThread
    generalize hlabel : Event.irq 0 = label at hirq
    cases hirq with
    | @irq src =>
      change Runnable ((irqHandler s₀ src).thread (irqHandler s₀ src).currThread).state
      rw [(quiet_irqHandler s₀ src).currThread]
      rcases irqHandler_state s₀ src s₀.currThread with hst | ⟨-, -, -, hst⟩
      · rw [hst, hcurr]
        change Runnable (s₀.thread smallBoot.main).state
        rw [hmain]
        exact Or.inr rfl
      · exact Or.inl hst
    | _ => cases hlabel
  · simp at heq

/-- Init exits, and after the idle and the main thread it is in front again. -/
theorem exitScript_returns : ∃ s₀ es s, kmain smallBoot = some s₀ ∧ Run SysStep s₀ es s ∧
    ¬ NeverTo Exited es := by
  obtain ⟨s₀, es, s, hboot, hrun, hP⟩ := playBoot_run
    (tick ++ [.exit 7, .irq .other, .switch] ++ tick ++ tick)
    (fun es _ => decide (es = [.irq 0, .switch 0x20 0x30, .exit 0x30 1 7 0, .irq 0,
      .switch 0x30 0x10, .irq 0, .switch 0x10 0x20, .irq 0] ++ [.switch 0x20 0x30]))
    (by decide +kernel)
  refine ⟨s₀, es, s, hboot, hrun, fun hnever => ?_⟩
  exact hnever _ 0x20 0x30 [] (of_decide_eq_true hP) ⟨1, 7, 0, by simp⟩

end FrogKernel.Process
