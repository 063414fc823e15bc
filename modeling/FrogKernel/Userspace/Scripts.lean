import FrogKernel.Userspace.Processes

/-!
# Scripted runs

The machine takes many steps that only the schedule and the user programs
choose.  `play` runs a script of such choices, and `play_run` says that what it
does is a run of the machine.
-/

namespace FrogKernel.Process

open FrogKernel.Runs FrogKernel.Tty

/-- A choice between the steps the machine can take. -/
inductive Choice where
  | spawn (p t : Ptr) (pageDir : Nat)
  | exit (code : Nat)
  | wait (pid : Nat) (exitCode : Ptr)
  /-- The next step of `sys_wait`, from its loop on. -/
  | waitOn
  | ttyRead (len : Nat)
  | irq (src : Irq)
  | switch

/-- The next step of `sys_wait`. -/
def waitOn (s : System) : Cont → Option (Event × System)
  | .waitLoop w =>
    if (s.proc s.currProcess).state ≠ .waiting then
      some (.waitEnds, { s with running := .waitTail w .store true })
    else none
  | .waitTail w stmt sti =>
    (waitStatement s w sti stmt).map fun s' =>
      if stmt = .ret then
        (.waitReturn (s.proc s.currProcess).pid w.childPid w.stored, s')
      else (.waitStatement stmt, s')
  | _ => none

def choose (s : System) : Choice → Option (Event × System)
  | .spawn p t pageDir =>
    if s.running = .user ∧ s.inIrq = false ∧ Fresh s p ∧ Fresh s t ∧ p ≠ t ∧ pageDir ≠ 0 ∧
        s.largeAllocBase + KSTACK_SIZE ≤ 2 ^ 32 then
      (sysSpawn (overwrite s [] s.thread s.proc) p t pageDir).map fun s' =>
        (.spawn (s.proc s.currProcess).pid s.nextPid p t [], s')
    else none
  | .exit code =>
    if s.running = .user ∧ s.inIrq = false then
      some (.exit s.currThread (s.proc s.currProcess).pid code (exitWakes s), sysExit s code)
    else none
  | .wait pid exitCode =>
    if s.running = .user ∧ s.inIrq = false then
      (sysWait s pid exitCode).map fun s' => (.wait s.currThread s'.running.inWaitLoop, s')
    else none
  | .waitOn => if s.inIrq = false then waitOn s s.running else none
  | .ttyRead len =>
    if s.running = .user ∧ s.inIrq = false then
      some (.ttyRead s.currThread (ttyReadLoop s len).running.inTtyHalt, ttyReadLoop s len)
    else none
  | .irq src =>
    if s.running.interruptible = true ∧ s.inIrq = false then
      some (.irq (irqWakes s src),
        { irqHandler s src with running := s.running.afterHlt, inIrq := true })
    else none
  | .switch =>
    if s.inIrq = true ∧ s.schedulePending = true ∧ s.currThread ≠ 0 then
      (schedulerSwitch { s with schedulePending := false }).map fun r =>
        (.switch s.currThread r.1, { r.2 with inIrq := false })
    else none

theorem waitOn_step {s s' : System} {e : Event} (hq : s.inIrq = false)
    (h : waitOn s s.running = some (e, s')) : SysStep s e s' := by
  cases hrun : s.running with
  | waitLoop w =>
    rw [hrun, waitOn] at h
    split at h
    case isTrue hstate =>
      cases h
      exact .waitEnds hrun hq hstate
    case isFalse => cases h
  | waitTail w stmt sti =>
    rw [hrun, waitOn] at h
    obtain ⟨t, hstep, h⟩ := Option.map_eq_some_iff.mp h
    split at h
    case isTrue hret =>
      obtain ⟨rfl, rfl⟩ := Prod.mk.inj h
      subst hret
      exact .waitReturn hrun hq hstep
    case isFalse hret =>
      cases h
      exact .waitStatement hrun hq hret hstep
  | user | kernel | exitLoop | ttyHalted | ttyWoken =>
    rw [hrun] at h
    cases h

/-- A choice is a step of the machine. -/
theorem choose_step {s s' : System} {c : Choice} {e : Event} (h : choose s c = some (e, s')) :
    SysStep s e s' := by
  cases c with
  | spawn p t pageDir =>
    rw [choose] at h
    split at h
    case isFalse => cases h
    case isTrue hg =>
      obtain ⟨hrun, hq, hp, ht, hpt, hdir, hbase⟩ := hg
      obtain ⟨t, hspawn, h⟩ := Option.map_eq_some_iff.mp h
      cases h
      exact .spawn hrun hq (fun x hx => by cases hx) hp ht hpt hdir hbase hspawn
  | exit code =>
    rw [choose] at h
    split at h
    case isFalse => cases h
    case isTrue hg =>
      cases h
      exact .exit hg.1 hg.2
  | wait pid exitCode =>
    rw [choose] at h
    split at h
    case isFalse => cases h
    case isTrue hg =>
      obtain ⟨t, hwait, h⟩ := Option.map_eq_some_iff.mp h
      cases h
      exact .wait hg.1 hg.2 hwait
  | waitOn =>
    rw [choose] at h
    split at h
    case isFalse => cases h
    case isTrue hq => exact waitOn_step hq h
  | ttyRead len =>
    rw [choose] at h
    split at h
    case isFalse => cases h
    case isTrue hg =>
      cases h
      exact .ttyRead hg.1 hg.2
  | irq src =>
    rw [choose] at h
    split at h
    case isFalse => cases h
    case isTrue hg =>
      cases h
      exact .irq hg.1 hg.2
  | switch =>
    rw [choose] at h
    split at h
    case isFalse => cases h
    case isTrue hg =>
      obtain ⟨⟨next, t⟩, hswitch, h⟩ := Option.map_eq_some_iff.mp h
      cases h
      exact .switch hg.1 hg.2.1 hg.2.2 hswitch

/-- The events of a script, and the state after it. -/
def play (s : System) : List Choice → Option (List Event × System)
  | [] => some ([], s)
  | c :: cs =>
    (choose s c).bind fun r => (play r.2 cs).map fun r' => (r.1 :: r'.1, r'.2)

/-- **A script is a run.** -/
theorem play_run {cs : List Choice} :
    ∀ {s s' : System} {es : List Event}, play s cs = some (es, s') → Run SysStep s es s' := by
  induction cs with
  | nil =>
    intro s s' es h
    cases h
    exact .refl s
  | cons c cs ih =>
    intro s s' es h
    obtain ⟨⟨e, t⟩, hc, h⟩ := Option.bind_eq_some_iff.mp h
    obtain ⟨⟨es', u⟩, hcs, h⟩ := Option.map_eq_some_iff.mp h
    cases h
    exact .step (choose_step hc) (ih hcs)

/-- `play` as long as the steps meet a condition. -/
def playGuarded (C : System → Event → Prop) [∀ s e, Decidable (C s e)] (s : System) :
    List Choice → Option (List Event × System)
  | [] => some ([], s)
  | c :: cs =>
    (choose s c).bind fun r =>
      if C s r.1 then (playGuarded C r.2 cs).map fun r' => (r.1 :: r'.1, r'.2) else none

theorem playGuarded_run {C : System → Event → Prop} [∀ s e, Decidable (C s e)] {cs : List Choice} :
    ∀ {s s' : System} {es : List Event}, playGuarded C s cs = some (es, s') →
      Run (Guarded C SysStep) s es s' := by
  induction cs with
  | nil =>
    intro s s' es h
    cases h
    exact .refl s
  | cons c cs ih =>
    intro s s' es h
    obtain ⟨⟨e, t⟩, hc, h⟩ := Option.bind_eq_some_iff.mp h
    split at h
    case isFalse => cases h
    case isTrue hC =>
      obtain ⟨⟨es', u⟩, hcs, h⟩ := Option.map_eq_some_iff.mp h
      cases h
      exact .step ⟨hC, choose_step hc⟩ (ih hcs)

/-- A boot with small addresses. -/
def smallBoot : Boot where
  thread := fun _ =>
    { esp := .kernel, stackBase := 0, stackSize := 0, state := .dead, process := 0, next := 0 }
  proc := fun _ =>
    { pid := 0, pageDir := 0, thread := 0, state := .dead, parent := 0, next := 0, exitCode := 0 }
  tty := { ring := fun _ => 0, ringRead := 0, ringWrite := 0, ringCount := 0, lineLen := 0 }
  kernelPdPhys := 0x1000
  pageDir := 0x2000
  largeAllocBase := LARGE_ALLOC_BASE
  idle := 0x10
  main := 0x20
  initThread := 0x30
  init := 0x40
  base_le := by decide
  pageDir_ne := by decide
  nonzero := by decide
  distinct := by decide

/-- A script played from the small boot. -/
def playBoot (cs : List Choice) : Option (System × List Event × System) :=
  (kmain smallBoot).bind fun s => (play s cs).map fun r => (s, r)

theorem playBoot_run (cs : List Choice) (P : List Event → System → Bool)
    (h : (playBoot cs).any (fun r => P r.2.1 r.2.2) = true) :
    ∃ s₀ es s, kmain smallBoot = some s₀ ∧ Run SysStep s₀ es s ∧ P es s = true := by
  obtain ⟨⟨s₀, es, s⟩, hplay, hP⟩ := Option.any_eq_true _ _ |>.mp h
  obtain ⟨s₁, hboot, hplay⟩ := Option.bind_eq_some_iff.mp hplay
  obtain ⟨⟨es', s'⟩, hplay, heq⟩ := Option.map_eq_some_iff.mp hplay
  cases heq
  exact ⟨s₀, es, s, hboot, play_run hplay, hP⟩

/-- A timer tick that switches threads. -/
def tick : List Choice := [.irq (.timer true), .switch]

end FrogKernel.Process
