import FrogKernel.Userspace.Sleeping

/-!
# Readers of the terminal sleep on incomplete lines only

`tty_input_push` wakes the current thread and no other.  That is enough: a
reader that `tty_read` blocked stays current until the interrupt that ends its
`hlt`, and `scheduler_switch` leaves it ready.  `readers_awake` says so for every
run from boot, whatever else the processes do and whatever memory is reused.
-/

namespace FrogKernel.Process

open FrogKernel.Runs FrogKernel.Tty

def Cont.inTtyRead : Cont → Bool
  | .ttyHalted _ | .ttyWoken _ => true
  | _ => false

/-- Thread `t` is blocked by `tty_read`. -/
structure BlockedReader (s : System) (t : Ptr) : Prop where
  allocated : t ∈ s.thrds
  state : (s.thread t).state = .blocked
  reads : (ctx s t).inTtyRead = true

/-- No reader sleeps on a complete line. -/
def ReadersAwake (s : System) : Prop := ∀ t, BlockedReader s t → hasNewline s.tty = false

/-- Only the current thread is blocked by `tty_read`. -/
def ReadersInv (s : System) : Prop :=
  ∀ t, BlockedReader s t → t = s.currThread ∧ hasNewline s.tty = false

theorem ReadersInv.awake {s : System} (h : ReadersInv s) : ReadersAwake s :=
  fun t ht => (h t ht).2

/-! ## The ring -/

theorem hasNewlineFrom_succ (t : TtyT) (n : Nat) : ∀ i, hasNewlineFrom t i n = true →
    hasNewlineFrom t i (n + 1) = true := by
  induction n with
  | zero => simp [hasNewlineFrom]
  | succ n ih =>
    intro i h
    rw [hasNewlineFrom] at h ⊢
    split at h
    case isTrue heq => rw [if_pos heq]
    case isFalse hne =>
      rw [if_neg hne]
      exact ih (i + 1) h

theorem hasNewlineFrom_congr {t t' : TtyT} (hring : t'.ring = t.ring)
    (hread : t'.ringRead = t.ringRead) (n : Nat) :
    ∀ i, hasNewlineFrom t' i n = hasNewlineFrom t i n := by
  induction n with
  | zero => exact fun _ => rfl
  | succ n ih =>
    intro i
    simp only [hasNewlineFrom, hring, hread, ih]

/-- The ring without its last byte. -/
theorem hasNewline_fewer {t t' : TtyT} (hring : t'.ring = t.ring) (hread : t'.ringRead = t.ringRead)
    (hcount : t.ringCount = t'.ringCount + 1) (h : hasNewline t = false) : hasNewline t' = false := by
  by_contra hnl
  have hnl : hasNewline t' = true := by simpa using hnl
  rw [hasNewline, hasNewlineFrom_congr hring hread] at hnl
  have hmore := hasNewlineFrom_succ t _ 0 hnl
  rw [← hcount, ← hasNewline, h] at hmore
  cases hmore

/-- A push that does not get to the test of the current thread adds no byte. -/
theorem hasNewline_push {s : System} {c : BitVec 8} (hreach : reachesWake s c = false)
    (h : hasNewline s.tty = false) : hasNewline (ttyInputPush s.tty c).1 = false := by
  unfold ttyInputPush
  split
  · split
    · exact h
    · split
      case isTrue hpos =>
        exact hasNewline_fewer (t := s.tty) rfl rfl (show s.tty.ringCount = s.tty.ringCount - 1 + 1 by omega) h
      case isFalse => exact h
  case isFalse hback =>
    split
    case isTrue => exact h
    case isFalse hroom =>
      -- the push would get to the test
      simp [reachesWake, hback] at hreach
      omega

theorem hasNewline_of_loop {t : TtyT} (h : t.ringCount = 0 ∨ hasNewline t = false) :
    hasNewline t = false := by
  rcases h with h | h
  · rw [hasNewline, h]
    rfl
  · exact h

/-! ## The steps -/

/-- The step lemma: what a step does to the other threads, and to the current
one. -/
theorem ReadersInv.of_others {s s' : System} (h : ReadersInv s)
    (hcurr : s'.currThread = s.currThread)
    (hothers : ∀ t, t ≠ s.currThread → BlockedReader s' t → BlockedReader s t)
    (hself : BlockedReader s' s.currThread → hasNewline s'.tty = false) : ReadersInv s' := by
  intro t ht
  by_cases heq : t = s.currThread
  · subst heq
    exact ⟨hcurr.symm, hself ht⟩
  · exact absurd (h t (hothers t heq ht)).1 heq

/-- A step after which the current thread is not in `tty_read`, and that makes
no other thread blocked. -/
theorem ReadersInv.of_left {s s' : System} (h : ReadersInv s)
    (hcurr : s'.currThread = s.currThread) (hrun : s'.running.inTtyRead = false)
    (hthrds : ∀ t, t ∈ s'.thrds → t ∈ s.thrds)
    (hothers : ∀ t, t ≠ s.currThread → (s'.thread t).esp = (s.thread t).esp ∧
      ((s'.thread t).state = .blocked → (s.thread t).state = .blocked)) : ReadersInv s' := by
  refine h.of_others hcurr (fun t hne ht => ⟨hthrds t ht.allocated, (hothers t hne).2 ht.state, ?_⟩)
    fun ht => ?_
  · have hreads := ht.reads
    rw [ctx_of_ne (hcurr ▸ hne), (hothers t hne).1] at hreads
    rw [ctx_of_ne hne]
    exact hreads
  · have hreads := ht.reads
    rw [← hcurr, ctx_curr, hrun] at hreads
    cases hreads

/-- A step that changes no thread. -/
theorem ReadersInv.of_threads {s s' : System} (h : ReadersInv s)
    (hcurr : s'.currThread = s.currThread) (hrun : s'.running.inTtyRead = false)
    (hthrds : ∀ t, t ∈ s'.thrds → t ∈ s.thrds) (hthread : s'.thread = s.thread) : ReadersInv s' :=
  h.of_left hcurr hrun hthrds fun t _ => by rw [hthread]; exact ⟨rfl, id⟩

theorem schedulerAdd_same {s s' : System} {t : Ptr} (hadd : schedulerAdd s t = some s') :
    s'.currThread = s.currThread ∧ s'.idleThread = s.idleThread ∧ s'.running = s.running ∧
      s'.thrds = s.thrds ∧ s'.tty = s.tty ∧
      ∀ x, (s'.thread x).esp = (s.thread x).esp ∧ (s'.thread x).state = (s.thread x).state := by
  have hnext : ∀ (s : System) (t n x : Ptr),
      ((setThread s t fun r => { r with next := n }).thread x).esp = (s.thread x).esp ∧
        ((setThread s t fun r => { r with next := n }).thread x).state = (s.thread x).state := by
    intro s t n x
    rw [setThread_thread]
    split
    case isTrue heq => rw [heq]; exact ⟨rfl, rfl⟩
    case isFalse => exact ⟨rfl, rfl⟩
  unfold schedulerAdd at hadd
  split at hadd
  case isTrue =>
    obtain rfl := Option.some.inj hadd
    exact ⟨rfl, rfl, rfl, rfl, rfl, fun x => hnext _ t t x⟩
  case isFalse =>
    obtain ⟨tail, -, rfl⟩ := Option.map_eq_some_iff.mp hadd
    refine ⟨rfl, rfl, rfl, rfl, rfl, fun x => ?_⟩
    rw [(hnext _ t _ x).1, (hnext _ t _ x).2]
    exact hnext s tail t x

theorem readersInv_spawn {s s' : System} (h : ReadersInv s) {p t pageDir : Ptr} {reused : List Ptr}
    {mt : Ptr → ThreadT} {mp : Ptr → ProcessT} (hrun : s.running = .user)
    (hfree : Unallocated s reused)
    (hspawn : sysSpawn (overwrite s reused mt mp) p t pageDir = some s') : ReadersInv s' := by
  obtain ⟨hcurr, -, hrunning, hthrds, -, hsame⟩ :=
    schedulerAdd_same (s := spawnRecords (overwrite s reused mt mp) p t pageDir) hspawn
  refine h.of_others hcurr (fun x hne hx => ?_) fun hx => ?_
  · have hxt : x ≠ t := by
      rintro rfl
      have hstate := hx.state
      rw [(hsame x).2, spawnRecords_thread, if_pos rfl] at hstate
      cases hstate
    have hx' : x ∈ s.thrds := by
      have hmem := hx.allocated
      rw [hthrds] at hmem
      exact (List.mem_cons.mp hmem).resolve_left hxt
    have hkeep : (overwrite s reused mt mp).thread x = s.thread x :=
      if_neg fun hmem => (hfree x hmem).1 hx'
    refine ⟨hx', ?_, ?_⟩
    · rw [← hx.state, (hsame x).2, spawnRecords_thread, if_neg hxt, hkeep]
    · have hreads := hx.reads
      rw [ctx_of_ne (hcurr ▸ hne), (hsame x).1, spawnRecords_thread, if_neg hxt, hkeep] at hreads
      rw [ctx_of_ne hne]
      exact hreads
  · have hreads := hx.reads
    have huser : s'.running = .user := hrunning.trans hrun
    rw [show s.currThread = s'.currThread from hcurr.symm, ctx_curr, huser] at hreads
    cases hreads

theorem readersInv_ttyRead {s : System} (h : ReadersInv s) (len : Nat) :
    ReadersInv (ttyReadLoop s len) := by
  unfold ttyReadLoop
  split
  case isTrue hempty =>
    refine h.of_others rfl (fun t hne ht => ?_) fun _ => hasNewline_of_loop hempty
    have hsame : ((setThread s s.currThread fun r => { r with state := .blocked }).thread t) =
        s.thread t := by
      rw [setThread_thread, if_neg hne]
    refine ⟨ht.allocated, ?_, ?_⟩
    · rw [← hsame]
      exact ht.state
    · have hreads := ht.reads
      rw [ctx_of_ne (by exact hne)] at hreads ⊢
      rw [← hsame]
      exact hreads
  case isFalse => exact h.of_threads rfl rfl (fun _ ht => ht) rfl

theorem readersInv_state {s : System} (h : ReadersInv s) {v : ThreadState} (hv : v ≠ .blocked) :
    ReadersInv (setThread s s.currThread fun r => { r with state := v }) := by
  refine h.of_others rfl (fun t hne ht => ⟨ht.allocated, ?_, ?_⟩) fun ht => ?_
  · rw [← ht.state, setState_thread, if_neg hne]
  · have hreads := ht.reads
    rw [ctx_of_ne (by exact hne), setState_thread] at hreads
    rw [ctx_of_ne hne]
    exact hreads
  · have hstate := ht.state
    rw [setState_thread, if_pos rfl] at hstate
    exact absurd hstate hv

theorem afterHlt_inTtyRead (c : Cont) : c.afterHlt.inTtyRead = c.inTtyRead := by
  cases c <;> rfl

/-- A step that changes no thread and leaves the current one where it is, but for
the end of a `hlt`. -/
theorem ReadersInv.of_hlt {s s' : System} (h : ReadersInv s)
    (hcurr : s'.currThread = s.currThread) (hthrds : s'.thrds = s.thrds)
    (hthread : s'.thread = s.thread) (hrun : s'.running.inTtyRead = s.running.inTtyRead)
    (htty : BlockedReader s s.currThread → hasNewline s'.tty = false) : ReadersInv s' := by
  intro t ht
  have hctx : (ctx s' t).inTtyRead = (ctx s t).inTtyRead := by
    unfold ctx
    rw [hcurr, hthread]
    split
    · exact hrun
    · rfl
  have ht : BlockedReader s t := ⟨hthrds ▸ ht.allocated, hthread ▸ ht.state, hctx ▸ ht.reads⟩
  obtain ⟨rfl, -⟩ := h t ht
  exact ⟨hcurr.symm, htty ht⟩

/-- The keyboard interrupt wakes the current thread when it adds a byte. -/
theorem readersInv_irq {s : System} (h : ReadersInv s) (src : Irq) :
    ReadersInv { irqHandler s src with running := s.running.afterHlt, inIrq := true } := by
  have hsame : ∀ tty pending, (BlockedReader s s.currThread → hasNewline tty = false) → ReadersInv
      { s with tty, schedulePending := pending, running := s.running.afterHlt, inIrq := true } :=
    fun tty pending htty => h.of_hlt rfl rfl rfl (afterHlt_inTtyRead _) htty
  have hawake : BlockedReader s s.currThread → hasNewline s.tty = false := fun ht => (h _ ht).2
  cases src with
  | timer due =>
    rw [irqHandler]
    split
    · exact hsame s.tty true hawake
    · exact hsame s.tty s.schedulePending hawake
  | keyboard c =>
    simp only [irqHandler]
    split
    case isTrue hwakes =>
      have hready := readersInv_state h (v := .ready) (by simp)
      refine hready.of_hlt rfl rfl rfl (afterHlt_inTtyRead _) fun ht => ?_
      have hstate : ((setThread s s.currThread fun r => { r with state := .ready }).thread
        s.currThread).state = .blocked := ht.state
      rw [setState_thread] at hstate
      simp at hstate
    case isFalse hwakes =>
      refine hsame _ s.schedulePending fun ht => hasNewline_push ?_ (hawake ht)
      by_contra hreach
      exact hwakes ⟨by simpa using hreach, ht.state⟩
  | other => exact hsame s.tty s.schedulePending hawake

theorem readersInv_switch {s s' : System} {next : Ptr} (h : ReadersInv s)
    (hswitch : schedulerSwitch { s with schedulePending := false } = some (next, s')) :
    ReadersInv { s' with inIrq := false } := by
  obtain ⟨-, ⟨heq, rfl⟩ | ⟨hne, rfl⟩⟩ := schedulerSwitch_some hswitch
  · -- the switch that goes nowhere saves the context
    intro t ht
    have hstate := ht.state
    have hreads : (ctx (saveEsp { s with schedulePending := false }) t).inTtyRead = true := ht.reads
    rw [ctx_saveEsp] at hreads
    rw [show ({ saveEsp { s with schedulePending := false } with inIrq := false } : System).thread =
      (saveEsp { s with schedulePending := false }).thread from rfl, saveEsp_thread] at hstate
    exact h t ⟨ht.allocated, hstate, hreads⟩
  · intro t ht
    have hstate : ((switchTo (saveEsp { s with schedulePending := false }) s.currThread
      next).thread t).state = .blocked := ht.state
    unfold switchTo at hstate
    simp only [setState_thread, saveEsp_thread] at hstate
    split at hstate
    case isTrue => cases hstate
    case isFalse hnext =>
    split at hstate
    case isTrue => cases hstate
    case isFalse hold =>
    have hreads : (ctx (switchTo (saveEsp { s with schedulePending := false }) s.currThread
      next) t).inTtyRead = true := ht.reads
    rw [ctx_of_ne hnext] at hreads
    unfold switchTo at hreads
    simp only [setState_thread, saveEsp_thread] at hreads
    exact absurd (h t ⟨ht.allocated, hstate, hreads⟩).1 hold

theorem readersInv_overwrite {s : System} (h : ReadersInv s) {reused : List Ptr}
    {mt : Ptr → ThreadT} {mp : Ptr → ProcessT} (hfree : Unallocated s reused) :
    ReadersInv (overwrite s reused mt mp) := by
  intro t ht
  have hkeep : (overwrite s reused mt mp).thread t = s.thread t :=
    if_neg fun hmem => (hfree t hmem).1 ht.allocated
  have hctx : ctx (overwrite s reused mt mp) t = ctx s t := by
    unfold ctx
    rw [hkeep]
    rfl
  exact h t ⟨ht.allocated, hkeep ▸ ht.state, hctx ▸ ht.reads⟩

theorem readersInv_exit {s : System} (h : ReadersInv s) (code : Nat) :
    ReadersInv (sysExit s code) := by
  have hq := quiet_sysExit s code
  refine h.of_left hq.currThread rfl (fun t ht => ?_) fun t hne => ?_
  · rw [sysExit_eq] at ht
    split at ht <;> exact ht
  · rw [sysExit_thread]
    split
    · exact ⟨rfl, fun heq => by cases heq⟩
    · exact ⟨rfl, id⟩

theorem uprocessRemoveLoop_same {s s' : System} {pid : Nat} :
    ∀ {n : Nat} {prev p : Ptr}, uprocessRemoveLoop s pid n prev p = some s' →
      s'.currThread = s.currThread ∧ s'.idleThread = s.idleThread ∧ s'.thrds = s.thrds ∧ s'.thread = s.thread
  | 0, _, _, h => by simp [uprocessRemoveLoop] at h
  | n + 1, prev, p, h => by
    unfold uprocessRemoveLoop at h
    split at h
    · obtain rfl := Option.some.inj h
      exact ⟨rfl, rfl, rfl, rfl⟩
    split at h
    · split at h
      · obtain rfl := Option.some.inj h
        exact ⟨rfl, rfl, rfl, rfl⟩
      · obtain rfl := Option.some.inj h
        exact ⟨rfl, rfl, rfl, rfl⟩
    · exact uprocessRemoveLoop_same h

theorem readersInv_waitStatement {s s' : System} {w : WaitCall} {stmt : WaitStmt} {sti : Bool}
    (h : ReadersInv s) (hstmt : stmt ≠ .ret) (hstep : waitStatement s w sti stmt = some s') :
    ReadersInv s' := by
  cases stmt with
  | remove =>
    obtain ⟨s₁, hremove, rfl⟩ := Option.map_eq_some_iff.mp hstep
    obtain ⟨hcurr, -, hthrds, hthread⟩ := uprocessRemoveLoop_same hremove
    exact h.of_threads hcurr rfl (fun _ ht => hthrds ▸ ht) hthread
  | freeThread =>
    obtain rfl := Option.some.inj hstep
    exact h.of_threads rfl rfl (fun _ ht => List.mem_of_mem_erase ht) rfl
  | ret => exact absurd rfl hstmt
  | store | freeStack | freeProcess =>
    obtain rfl := Option.some.inj hstep
    exact h.of_threads rfl rfl (fun _ ht => ht) rfl

/-- **One step.** -/
theorem readersInv_step {s s' : System} {e : Event} (h : ReadersInv s) (hstep : SysStep s e s') :
    ReadersInv s' := by
  cases hstep with
  | spawn hrun _ hfree _ _ _ _ _ hspawn => exact readersInv_spawn h hrun hfree hspawn
  | spawnFailed _ _ hfree => exact readersInv_overwrite h hfree
  | exit => exact readersInv_exit h _
  | wait hrun _ hwait =>
    rcases sysWait_some hwait with rfl | ⟨w, -, ⟨-, rfl⟩ | ⟨-, rfl⟩⟩
    · exact h
    · refine h.of_left rfl rfl (fun _ ht => ht) fun t hne => ?_
      have hsame : (waitBlock s w).thread t = s.thread t := by
        simp only [waitBlock, setThread_thread, setProc_thread]
        exact if_neg hne
      rw [hsame]
      exact ⟨rfl, id⟩
    · exact h.of_threads rfl rfl (fun _ ht => ht) rfl
  | waitEnds hrun => exact h.of_threads rfl rfl (fun _ ht => ht) rfl
  | waitStatement _ _ hstmt hstep => exact readersInv_waitStatement h hstmt hstep
  | waitReturn hrun _ hstep =>
    obtain rfl := Option.some.inj hstep
    exact h.of_threads rfl rfl (fun _ ht => ht) rfl
  | ttyRead => exact readersInv_ttyRead h _
  | ttyResume => exact readersInv_ttyRead (readersInv_state h (by simp)) _
  | irq => exact readersInv_irq h _
  | irqReturn => exact h.of_hlt rfl rfl rfl rfl fun ht => (h _ ht).2
  | switch _ _ _ hswitch => exact readersInv_switch h hswitch

theorem Booted.readersInv {b : Boot} {s : System} (h : Booted b s) : ReadersInv s := by
  obtain ⟨_, hidle⟩ := h.idle
  obtain ⟨_, hmain⟩ := h.main
  obtain ⟨_, hinit⟩ := h.initThread
  intro t ht
  have hmem := ht.allocated
  have hstate := ht.state
  simp only [h.thrds, List.mem_cons, List.not_mem_nil, or_false] at hmem
  rcases hmem with rfl | rfl | rfl
  · rw [hinit] at hstate
    cases hstate
  · rw [hmain] at hstate
    cases hstate
  · rw [hidle] at hstate
    cases hstate

/-- **Readers.**  In no state of a run from boot is a thread blocked by
`tty_read` while the ring contains a newline. -/
theorem readers_awake {b : Boot} {s₀ s : System} {es : List Event} (hboot : kmain b = some s₀)
    (hrun : Run SysStep s₀ es s) : ReadersAwake s := by
  have h₀ : ReadersInv s₀ := (kmain_booted hboot).readersInv
  exact (hrun.invariant (fun _ _ _ h hstep => readersInv_step h hstep) h₀).awake

/-- Init reads from the terminal, and the key that ends a line wakes it. -/
def typedNewline : List Choice := tick ++ [.ttyRead 16, .irq (.keyboard newline)]

theorem typedNewline_awake : ∃ s₀ es s, kmain smallBoot = some s₀ ∧ Run SysStep s₀ es s ∧
    hasNewline s.tty = true ∧ ReadersAwake s := by
  obtain ⟨s₀, es, s, hboot, hrun, hP⟩ := playBoot_run typedNewline
    (fun es s => hasNewline s.tty && decide (es.getLast? = some (.irq 0x30))) (by decide +kernel)
  exact ⟨s₀, es, s, hboot, hrun, (Bool.and_eq_true_iff.mp hP).1, readers_awake hboot hrun⟩

end FrogKernel.Process
