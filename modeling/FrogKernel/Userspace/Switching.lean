import FrogKernel.Userspace.Sleeping

/-!
# What a switch loads

`scheduler_switch` returns early when it stays with a thread, and leaves `cr3`
alone between kernel threads.  `loaded_run`: in every run the process, the page
directory and the kernel stack in use are nevertheless those of the current
thread, and no other thread is marked as running.
-/

namespace FrogKernel.Process

open FrogKernel.Runs FrogKernel.Tty

/-- What belongs to the current thread is in use. -/
structure Loaded (s : System) : Prop where
  currProcess : s.currProcess = (s.thread s.currThread).process
  pageDir : s.cr3 = if s.currProcess ≠ 0 then (s.proc s.currProcess).pageDir else s.kernelPdPhys
  kernelStack : s.tssEsp0 = (s.thread s.currThread).stackBase + (s.thread s.currThread).stackSize
  running : ∀ t ∈ s.thrds, t ≠ s.currThread → (s.thread t).state ≠ .running

/-- A state as `kmain` leaves it, over any ring of threads. -/
structure KmainState (s : System) : Prop where
  unreaped : Unreaped s
  pageDirs : ∀ p ∈ s.procs, (s.proc p).pageDir ≠ 0
  kernelThread : (s.thread s.currThread).process = 0
  kernelDir : s.cr3 = s.kernelPdPhys
  kernelStack : s.tssEsp0 = (s.thread s.currThread).stackBase + (s.thread s.currThread).stackSize
  running : ∀ t ∈ s.thrds, t ≠ s.currThread → (s.thread t).state ≠ .running

/-- The invariant. -/
structure Scheduled (s : System) : Prop where
  unreaped : Unreaped s
  pageDirs : ∀ p ∈ s.procs, (s.proc p).pageDir ≠ 0
  loaded : Loaded s

theorem KmainState.scheduled {s : System} (h : KmainState s) : Scheduled s := by
  have hcurr : s.currProcess = 0 := h.unreaped.closed.currProcess.trans h.kernelThread
  refine ⟨h.unreaped, h.pageDirs, h.unreaped.closed.currProcess, ?_, h.kernelStack, h.running⟩
  rw [hcurr, if_neg (by simp)]
  exact h.kernelDir

/-- What `kmain` itself leaves. -/
theorem Booted.kmainState {b : Boot} {s : System} (h : Booted b s) : KmainState s := by
  obtain ⟨_, hidle⟩ := h.idle
  obtain ⟨_, hmain⟩ := h.main
  obtain ⟨_, hinit⟩ := h.initThread
  refine ⟨h.unreaped, ?_, ?_, h.kernelDir, h.kernelStack, ?_⟩
  · simp [h.procs, h.init, b.pageDir_ne]
  · rw [h.currThread, hmain]
  · simp [h.thrds, h.currThread, hidle, hinit]

/-! ## The steps -/

theorem Scheduled.of_quiet {s s' : System} (h : Scheduled s) (hu : Unreaped s') (hq : Quiet s s')
    (hstate : ∀ t ∈ s.thrds, t ≠ s.currThread →
      (s'.thread t).state = .running → (s.thread t).state = .running) : Scheduled s' := by
  have hc := h.unreaped.closed
  obtain ⟨hcr3, hkernel, htss⟩ := hq.loaded
  have hT : ∀ t, t ∈ s'.thrds → t ∈ s.thrds := by
    intro t ht
    rw [← h.unreaped.thrds_eq, ← hq.thrds t, hu.thrds_eq]
    exact ht
  have hP : ∀ p, p ∈ s'.procs → p ∈ knownProcs s := by
    intro p hp
    rw [← hq.procs p, hu.procs_eq]
    exact hp
  refine ⟨hu, fun p hp => ?_, hu.closed.currProcess, ?_, ?_, fun t ht hne hrun => ?_⟩
  · rw [hq.pageDir p (hP p hp)]
    exact h.pageDirs p (h.unreaped.procs_eq ▸ hP p hp)
  · rw [hcr3, hkernel, hq.currProcess, h.loaded.pageDir]
    split
    case isTrue hne =>
      have hknown := (hc.currProcess ▸ hc.process _ hc.curr).resolve_left hne
      rw [hq.pageDir _ hknown]
    case isFalse => rfl
  · rw [htss, hq.currThread, (hq.stack _ hc.curr).1, (hq.stack _ hc.curr).2]
    exact h.loaded.kernelStack
  · rw [hq.currThread] at hne
    exact h.loaded.running t (hT t ht) hne (hstate t (hT t ht) hne hrun)

theorem scheduled_remove {s s' : System} (h : Scheduled s) (hu : Unreaped s') {w : WaitCall}
    {sti : Bool} (hstep : waitStatement s w sti .remove = some s') : Scheduled s' := by
  obtain ⟨s₁, hremove, rfl⟩ := Option.map_eq_some_iff.mp hstep
  obtain ⟨l, nx, rfl⟩ := uprocessRemove_some h.unreaped.closed hremove
  exact ⟨hu, h.pageDirs, h.loaded.currProcess, h.loaded.pageDir, h.loaded.kernelStack,
    h.loaded.running⟩

theorem scheduled_spawn {s s' : System} (h : Scheduled s) (hu : Unreaped s') {p t pageDir : Ptr}
    {reused : List Ptr} {mt : Ptr → ThreadT} {mp : Ptr → ProcessT} (hfree : Unallocated s reused)
    (hp : Fresh s p) (ht : Fresh s t) (hdir : pageDir ≠ 0)
    (hspawn : sysSpawn (overwrite s reused mt mp) p t pageDir = some s') : Scheduled s' := by
  have hc := h.unreaped.closed
  have hno : ∀ x : Ptr, x ∉ s.freedThrds ∧ x ∉ s.freedProcs := by
    simp [h.unreaped.freedThrds, h.unreaped.freedProcs]
  obtain ⟨-, hup, hut, tail, -, hs⟩ := spawn_step hc hfree hp ht (fun x _ => hno x) hspawn
  obtain ⟨hsameT, hsameP⟩ := overwrite_known mt mp hfree fun x _ => hno x
  have hthread : ∀ x ∈ knownThrds s,
      s'.thread x = { s.thread x with next := (s'.thread x).next } := by
    intro x hx
    rw [hs.thread_known ⟨hut.thrd, hut.proc⟩ hx, hsameT x hx]
  have hproc : ∀ x ∈ knownProcs s, s'.proc x = s.proc x := fun x hx =>
    (hs.proc_known ⟨hup.thrd, hup.proc⟩ hx).trans (hsameP x hx)
  have hcurrT : s'.currThread = s.currThread := hs.currThread
  have hcurrP : s'.currProcess = s.currProcess := hs.currProcess
  have hloaded : s'.cr3 = s.cr3 ∧ s'.kernelPdPhys = s.kernelPdPhys ∧ s'.tssEsp0 = s.tssEsp0 :=
    hs.loaded
  refine ⟨hu, fun x hx => ?_, hu.closed.currProcess, ?_, ?_, fun x hx hne => ?_⟩
  · rw [hs.procs] at hx
    rcases List.mem_cons.mp hx with rfl | hx
    · rw [hs.proc, if_pos rfl]
      exact hdir
    · rw [hproc x (h.unreaped.procs_eq ▸ hx)]
      exact h.pageDirs x hx
  · rw [hloaded.1, hloaded.2.1, hcurrP, h.loaded.pageDir]
    split
    case isTrue hne =>
      rw [hproc _ ((hc.currProcess ▸ hc.process _ hc.curr).resolve_left hne)]
    case isFalse => rfl
  · rw [hloaded.2.2, hcurrT, hthread _ hc.curr]
    exact h.loaded.kernelStack
  · rw [hs.thrds] at hx
    rcases List.mem_cons.mp hx with rfl | hx
    · simp [hs.thread]
    · rw [hthread x (h.unreaped.thrds_eq ▸ hx)]
      exact h.loaded.running x hx (hcurrT ▸ hne)

theorem switchTo_fields (s : System) (old next : Ptr) :
    (switchTo s old next).currProcess = (s.thread next).process ∧
      (switchTo s old next).tssEsp0 = (s.thread next).stackBase + (s.thread next).stackSize ∧
      (switchTo s old next).cr3 =
        if pageDirOf s next ≠ 0 then pageDirOf s next
        else if pageDirOf s old ≠ 0 then s.kernelPdPhys else s.cr3 := by
  have hdir : ∀ t, pageDirOf (setThread (setThread s old fun r => { r with state := .ready }) next
      fun r => { r with state := .running }) t = pageDirOf s t := by
    intro t
    unfold pageDirOf
    rw [setState_thread, setState_thread]
    rfl
  refine ⟨?_, ?_, ?_⟩
  · simp only [switchTo, setState_thread]
  · simp only [switchTo, setState_thread]
  · simp only [switchTo, hdir]
    rfl

theorem switchTo_thread (s : System) (old next t : Ptr) : (switchTo s old next).thread t =
    { s.thread t with state :=
        if t = next then .running else if t = old then .ready else (s.thread t).state } := by
  simp only [switchTo, setState_thread]

theorem Unreaped.globals {s : System} (h : Unreaped s) (pending inIrq : Bool) :
    Unreaped { s with schedulePending := pending, inIrq := inIrq } :=
  h.of_quiet (h.closed.of_quiet (quiet_globals s _ _ _ _) fun w hw =>
      h.closed.child _ h.closed.curr w (by rw [ctx_curr]; exact hw))
    (quiet_globals s _ _ _ _) ⟨rfl, rfl, rfl, rfl⟩ h.running_ne

theorem Scheduled.globals {s : System} (h : Scheduled s) (pending inIrq : Bool) :
    Scheduled { s with schedulePending := pending, inIrq := inIrq } :=
  h.of_quiet (h.unreaped.globals pending inIrq) (quiet_globals s _ _ _ _) fun _ _ _ hrun => hrun

/-- **`scheduler_switch`.**  Where it leaves `cr3` alone, no process was and no
process is current. -/
theorem scheduled_switch {s s' : System} (h : Scheduled s) {next : Ptr} (hu : Unreaped s')
    (hswitch : schedulerSwitch s = some (next, s')) : Scheduled s' := by
  have hc := h.unreaped.closed
  have hknown := (schedulerSwitch_switched hc hswitch).known
  have hlists := sameLists_switch hswitch
  have hproc := schedulerSwitch_proc hswitch
  have hsave := saveEsp_thread s
  have hpageDir : ∀ t ∈ knownThrds s, pageDirOf (saveEsp s) t =
      if (s.thread t).process ≠ 0 then (s.proc (s.thread t).process).pageDir else 0 := by
    intro t _
    unfold pageDirOf
    rw [hsave]
    rfl
  have hpageDir_ne : ∀ t ∈ knownThrds s, (s.thread t).process ≠ 0 →
      (s.proc (s.thread t).process).pageDir ≠ 0 := fun t ht hne =>
    h.pageDirs _ (h.unreaped.procs_eq ▸ (hc.process t ht).resolve_left hne)
  have hdirs : ∀ p ∈ s'.procs, (s'.proc p).pageDir ≠ 0 := by
    intro p hp
    rw [hproc]
    exact h.pageDirs p (hlists.procs ▸ hp)
  obtain ⟨-, ⟨rfl, rfl⟩ | ⟨hne, rfl⟩⟩ := schedulerSwitch_some hswitch
  · -- the early return
    refine ⟨hu, hdirs, hu.closed.currProcess, h.loaded.pageDir, ?_, fun t ht hne => ?_⟩
    · rw [hsave]
      exact h.loaded.kernelStack
    · rw [hsave]
      exact h.loaded.running t ht hne
  · obtain ⟨hcurr, htss, hcr3⟩ := switchTo_fields (saveEsp s) s.currThread next
    have hthread := switchTo_thread (saveEsp s) s.currThread next
    rw [hsave] at hcurr htss
    refine ⟨hu, hdirs, hu.closed.currProcess, ?_, ?_, fun t ht hnext hrun => ?_⟩
    · rw [hcr3, hcurr, hproc, hpageDir next hknown, hpageDir _ hc.curr]
      by_cases hn : (s.thread next).process = 0
      · by_cases ho : (s.thread s.currThread).process = 0
        · have hcr3' := h.loaded.pageDir
          rw [h.loaded.currProcess, ho, if_neg (by simp)] at hcr3'
          simp only [hn, ho, ne_eq, not_true_eq_false, if_false]
          exact hcr3'
        · simp [hn, ho, hpageDir_ne _ hc.curr ho]
          rfl
      · simp [hn, hpageDir_ne next hknown hn]
    · rw [htss]
      change _ = ((switchTo _ s.currThread next).thread next).stackBase +
        ((switchTo _ s.currThread next).thread next).stackSize
      rw [hthread, hsave]
    · have hnext : t ≠ next := hnext
      rw [hthread, hsave] at hrun
      dsimp only at hrun
      rw [if_neg hnext] at hrun
      split at hrun
      · cases hrun
      case isFalse hold => exact h.loaded.running t (hlists.thrds ▸ ht) hold hrun

/-- **One step.** -/
theorem scheduled_step {s s' : System} {e : Event} (h : Scheduled s) (hstep : SysStep s e s')
    (he : e ≠ .waitStatement .freeThread) : Scheduled s' := by
  have hu : Unreaped s' := unreaped_step h.unreaped hstep he
  have hno : ∀ x : Ptr, x ∉ s.freedThrds ∧ x ∉ s.freedProcs := by
    simp [h.unreaped.freedThrds, h.unreaped.freedProcs]
  cases hstep with
  | spawn _ _ hfree hp ht _ hdir _ hspawn => exact scheduled_spawn h hu hfree hp ht hdir hspawn
  | @spawnFailed reused mt mp _ _ hfree =>
    have hthread := (overwrite_known mt mp hfree fun x _ => hno x).1
    refine h.of_quiet hu (quiet_overwrite hfree fun x _ => hno x) fun t ht _ hrun => ?_
    rwa [hthread t (h.unreaped.thrds_eq ▸ ht)] at hrun
  | exit =>
    refine h.of_quiet hu (quiet_sysExit s _) fun t _ hne hrun => ?_
    rw [sysExit_thread, if_neg hne] at hrun
    split at hrun
    · cases hrun
    · exact hrun
  | wait _ _ hwait =>
    refine h.of_quiet hu (quiet_sysWait hwait) fun t _ hne hrun => ?_
    rcases sysWait_some hwait with rfl | ⟨w, -, ⟨-, rfl⟩ | ⟨-, rfl⟩⟩
    · exact hrun
    · simp only [waitBlock, setState_thread] at hrun
      split at hrun
      · cases hrun
      · exact hrun
    · exact hrun
  | waitEnds => exact h.of_quiet hu (quiet_globals s _ _ _ _) fun _ _ _ hrun => hrun
  | @waitStatement _ w stmt sti hrunning _ _ hstep =>
    cases stmt with
    | remove => exact scheduled_remove h hu hstep
    | freeThread => exact absurd rfl he
    | freeProcess => exact absurd hrunning (h.unreaped.running_ne w sti)
    | store | freeStack | ret =>
      obtain rfl := Option.some.inj hstep
      exact h.of_quiet hu (quiet_globals s _ _ _ _) fun _ _ _ hrun => hrun
  | waitReturn hrunning _ hstep =>
    obtain rfl := Option.some.inj hstep
    exact h.of_quiet hu (quiet_globals s _ _ _ _) fun _ _ _ hrun => hrun
  | ttyRead =>
    refine h.of_quiet hu (quiet_ttyReadLoop s _) fun t _ hne hrun => ?_
    rwa [ttyReadLoop_thread s _ t hne] at hrun
  | ttyResume =>
    refine h.of_quiet hu ((quiet_threadState s _ _).trans (quiet_ttyReadLoop _ _))
      fun t _ hne hrun => ?_
    have hstate := (ttyReadLoop_thread (setThread s s.currThread _) _ t hne).symm.trans hrun
    rwa [setThread_thread, if_neg hne] at hstate
  | @irq src =>
    refine h.of_quiet hu ((quiet_irqHandler s src).trans (quiet_globals _ _ _ _ _))
      fun t _ hne hrun => ?_
    rcases irqHandler_state s src t with heq | ⟨hcurr, -⟩
    · exact heq.symm.trans hrun
    · exact absurd hcurr hne
  | irqReturn => exact h.globals false false
  | switch _ _ _ hswitch =>
    exact (scheduled_switch (h.globals false s.inIrq) (hu.globals _ _) hswitch).globals _ false

/-! ## Runs -/

/-- **Process, page directory and kernel stack.**  In a run without `kfree` of
a thread they are those of the current thread after every step, and no other
thread is in `THREAD_RUNNING`. -/
theorem loaded_run {s₀ s : System} {es : List Event} (h₀ : KmainState s₀)
    (hrun : Run SysStep s₀ es s) (hfree : .waitStatement .freeThread ∉ es) : Loaded s := by
  have hscheduled : ∀ {es : List Event} {s₀ s : System}, Run SysStep s₀ es s →
      Scheduled s₀ → .waitStatement .freeThread ∉ es → Scheduled s := by
    intro es s₀ s hrun
    induction hrun with
    | refl => exact fun h _ => h
    | step hstep _ ih =>
      intro h hes
      obtain ⟨he, hes⟩ := not_or.mp (fun hmem => hes (List.mem_cons.mpr hmem))
      exact ih (scheduled_step h hstep (Ne.symm he)) hes
  exact (hscheduled hrun h₀.scheduled hfree).loaded

/-- Three switches of the booted kernel, with a child spawned between them. -/
theorem reapScript_loaded : ∃ s₀ es s, kmain smallBoot = some s₀ ∧ Run SysStep s₀ es s ∧
    .switch 0x30 0x60 ∈ es ∧ Loaded s := by
  obtain ⟨s₀, es, s, hboot, hrun, hP⟩ := playBoot_run reapScript
    (fun es _ => decide (.switch 0x30 0x60 ∈ es) &&
      decide (Event.waitStatement .freeThread ∉ es)) (by decide +kernel)
  simp only [Bool.and_eq_true, decide_eq_true_eq] at hP
  exact ⟨s₀, es, s, hboot, hrun, hP.1, loaded_run (kmain_booted hboot).kmainState hrun hP.2⟩

end FrogKernel.Process
