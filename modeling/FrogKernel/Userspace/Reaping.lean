import FrogKernel.Userspace.Booted
import FrogKernel.Userspace.Scripts

/-!
# Reaping

`sys_wait` passes the thread of a dead child to `kfree` and leaves it on the
scheduler ring.  `noDangling_iff`: in a run from boot the process system holds
no pointer to freed memory exactly as long as no `sys_wait` gets to that call.
-/

namespace FrogKernel.Process

open FrogKernel.DList FrogKernel.Runs

/-- The threads on the scheduler ring. -/
inductive OnRing (s : System) : Ptr → Prop
  | head : OnRing s s.threadListHead
  | next {t : Ptr} : OnRing s t → OnRing s (s.thread t).next

/-- The processes on the process list. -/
inductive Listed (s : System) : Ptr → Prop
  | head : s.processList ≠ 0 → Listed s s.processList
  | next {p : Ptr} : Listed s p → (s.proc p).next ≠ 0 → Listed s (s.proc p).next

/-- Every record the process system reaches is allocated. -/
structure NoDangling (s : System) : Prop where
  ring : ∀ t, OnRing s t → t ∈ s.thrds
  list : ∀ p, Listed s p → p ∈ s.procs
  ringProcess : ∀ t, OnRing s t → NullOr (s.thread t).process s.procs
  currProcess : NullOr s.currProcess s.procs
  parent : ∀ p, Listed s p → NullOr (s.proc p).parent s.procs

theorem OnRing.known {s : System} (h : Closed s) {t : Ptr} (ht : OnRing s t) : t ∈ knownThrds s := by
  induction ht with
  | head => exact h.head
  | next _ ih => exact h.next _ ih

theorem Listed.known {s : System} (h : Closed s) {p : Ptr} (hp : Listed s p) : p ∈ knownProcs s := by
  induction hp with
  | head hne => exact h.list.resolve_left hne
  | next _ hne ih => exact (h.listNext _ ih).resolve_left hne

/-- The ring depends on the links of its threads only. -/
theorem OnRing.congr {s s' : System} (h : Closed s) (hhead : s'.threadListHead = s.threadListHead)
    (hnext : ∀ t ∈ knownThrds s, (s'.thread t).next = (s.thread t).next) {t : Ptr}
    (ht : OnRing s t) : OnRing s' t := by
  induction ht with
  | head => exact hhead ▸ OnRing.head
  | @next t ht ih => exact hnext t (ht.known h) ▸ OnRing.next ih

/-- A new thread behind the last one leaves the others on the ring. -/
theorem Spawned.onRing {s s' : System} {p t pageDir tail : Ptr} (h : Closed s)
    (hs : Spawned s p t pageDir tail s') (ht : Unknown s t) {x : Ptr} (hx : OnRing s x) :
    OnRing s' x := by
  induction hx with
  | head => exact hs.head ▸ OnRing.head
  | @next y hy ih =>
    have hnext := OnRing.next ih
    rw [hs.thread_known ht (hy.known h)] at hnext
    by_cases hyt : y = tail
    · rw [hyt, hs.tail_next, ← hs.head]
      exact OnRing.head
    · simpa [hyt] using hnext

theorem Spawned.onRing_new {s s' : System} {p t pageDir tail : Ptr} (h : Closed s)
    (hs : Spawned s p t pageDir tail s') (ht : Unknown s t) (htail : OnRing s tail) :
    OnRing s' t := by
  have hnext := OnRing.next (hs.onRing h ht htail)
  rw [hs.thread_known ht (htail.known h)] at hnext
  simpa using hnext

/-! ## Before the first reaping -/

structure SameLists (s s' : System) : Prop where
  thrds : s'.thrds = s.thrds
  procs : s'.procs = s.procs
  freedThrds : s'.freedThrds = s.freedThrds
  freedProcs : s'.freedProcs = s.freedProcs

/-- The invariant until `kfree` gets the first thread: nothing is freed, and
the thread of every process is on the ring. -/
structure Unreaped (s : System) : Prop where
  closed : Closed s
  freedThrds : s.freedThrds = []
  freedProcs : s.freedProcs = []
  nodup : s.thrds.Nodup
  ring : ∀ p ∈ s.procs, OnRing s (s.proc p).thread
  stage : ∀ t ∈ s.thrds, ∀ w sti, ctx s t ≠ .waitTail w .freeProcess sti

theorem Unreaped.thrds_eq {s : System} (h : Unreaped s) : knownThrds s = s.thrds := by
  rw [knownThrds, h.freedThrds, List.append_nil]

theorem Unreaped.procs_eq {s : System} (h : Unreaped s) : knownProcs s = s.procs := by
  rw [knownProcs, h.freedProcs, List.append_nil]

theorem Unreaped.noDangling {s : System} (h : Unreaped s) : NoDangling s := by
  have hT := h.thrds_eq
  have hP := h.procs_eq
  refine ⟨fun t ht => hT ▸ ht.known h.closed, fun p hp => hP ▸ hp.known h.closed, fun t ht => ?_, ?_,
    fun p hp => ?_⟩
  · rw [← hP]
    exact h.closed.process t (ht.known h.closed)
  · rw [← hP, h.closed.currProcess]
    exact h.closed.process _ h.closed.curr
  · rw [← hP]
    exact h.closed.parent p (hp.known h.closed)

theorem Unreaped.noReuse {s : System} (h : Unreaped s) (e : Event) : NoReuse s e := by
  cases e <;> simp [NoReuse, h.freedThrds, h.freedProcs]

theorem Unreaped.of_ring {s s' : System} (h : Unreaped s) (hc : Closed s') (hlists : SameLists s s')
    (hhead : s'.threadListHead = s.threadListHead)
    (hnext : ∀ t ∈ knownThrds s, (s'.thread t).next = (s.thread t).next)
    (hthread : ∀ p ∈ knownProcs s, (s'.proc p).thread = (s.proc p).thread)
    (hstage : ∀ t ∈ s.thrds, ∀ w sti, ctx s' t ≠ .waitTail w .freeProcess sti) : Unreaped s' := by
  refine ⟨hc, hlists.freedThrds.trans h.freedThrds, hlists.freedProcs.trans h.freedProcs, ?_, ?_, ?_⟩
  · rw [hlists.thrds]
    exact h.nodup
  · intro p hp
    rw [hlists.procs] at hp
    rw [hthread p (h.procs_eq ▸ hp)]
    exact (h.ring p hp).congr h.closed hhead hnext
  · rw [hlists.thrds]
    exact hstage

theorem Unreaped.of_links {s s' : System} (h : Unreaped s) (hc : Closed s') (hl : SameLinks s s')
    (hlists : SameLists s s')
    (hstage : ∀ t ∈ s.thrds, ∀ w sti, ctx s' t ≠ .waitTail w .freeProcess sti) : Unreaped s' :=
  h.of_ring hc hlists hl.head hl.next hl.thread hstage

theorem Unreaped.of_quiet {s s' : System} (h : Unreaped s) (hc : Closed s') (hq : Quiet s s')
    (hlists : SameLists s s')
    (hrun : ∀ w sti, s'.running ≠ .waitTail w .freeProcess sti) : Unreaped s' := by
  refine h.of_links hc hq.toSameLinks hlists fun t ht w sti => ?_
  rw [hq.ctx_eq (h.thrds_eq ▸ ht)]
  split
  · exact hrun w sti
  · exact h.stage t ht w sti

theorem sameLists_sysExit (s : System) (code : Nat) : SameLists s (sysExit s code) := by
  unfold sysExit
  dsimp only
  split
  · exact ⟨rfl, rfl, rfl, rfl⟩
  · exact ⟨rfl, rfl, rfl, rfl⟩

theorem sameLists_ttyReadLoop (s : System) (len : Nat) : SameLists s (ttyReadLoop s len) := by
  unfold ttyReadLoop
  split
  · exact ⟨rfl, rfl, rfl, rfl⟩
  · exact ⟨rfl, rfl, rfl, rfl⟩

theorem sameLists_irqHandler (s : System) (src : Irq) : SameLists s (irqHandler s src) := by
  cases src with
  | timer due =>
    rw [irqHandler]
    split
    · exact ⟨rfl, rfl, rfl, rfl⟩
    · exact ⟨rfl, rfl, rfl, rfl⟩
  | keyboard c =>
    simp only [irqHandler]
    split
    · exact ⟨rfl, rfl, rfl, rfl⟩
    · exact ⟨rfl, rfl, rfl, rfl⟩
  | other => exact ⟨rfl, rfl, rfl, rfl⟩

theorem sameLists_switch {s s' : System} {next : Ptr}
    (hswitch : schedulerSwitch s = some (next, s')) : SameLists s s' := by
  obtain ⟨-, ⟨-, rfl⟩ | ⟨-, rfl⟩⟩ := schedulerSwitch_some hswitch
  · exact ⟨rfl, rfl, rfl, rfl⟩
  · exact ⟨rfl, rfl, rfl, rfl⟩

theorem unreaped_spawn {s s' : System} (h : Unreaped s) (hc : Closed s') {p t pageDir : Ptr}
    {reused : List Ptr} {mt : Ptr → ThreadT} {mp : Ptr → ProcessT} (hfree : Unallocated s reused)
    (hp : Fresh s p) (ht : Fresh s t)
    (hspawn : sysSpawn (overwrite s reused mt mp) p t pageDir = some s') : Unreaped s' := by
  have hno : ∀ x : Ptr, x ∉ s.freedThrds ∧ x ∉ s.freedProcs := by
    simp [h.freedThrds, h.freedProcs]
  have hq : Quiet s (overwrite s reused mt mp) := quiet_overwrite hfree fun x _ => hno x
  have hut := ht.unknown (hno t)
  have hup := hp.unknown (hno p)
  have h1 : Closed (overwrite s reused mt mp) := h.closed.of_quiet hq fun w hw =>
    h.closed.child _ h.closed.curr w (by rw [ctx_curr]; exact hw)
  have hpos : s.threadListHead ≠ 0 := fun h0 => h.closed.thrds_pos (h0 ▸ h.closed.head)
  obtain ⟨tail, htail, hs⟩ := sysSpawn_spawned (P := OnRing (overwrite s reused mt mp)) hspawn hpos
    OnRing.head (fun x => OnRing.next) fun hx => hut.thrd (hx.known h1)
  have hut1 : Unknown (overwrite s reused mt mp) t := ⟨hut.thrd, hut.proc⟩
  refine ⟨hc, ?_, ?_, ?_, ?_, ?_⟩
  · rw [hs.freedThrds]
    change (s.freedThrds.erase p).erase t = []
    rw [h.freedThrds]
    rfl
  · rw [hs.freedProcs]
    change (s.freedProcs.erase p).erase t = []
    rw [h.freedProcs]
    rfl
  · rw [hs.thrds]
    exact List.nodup_cons.mpr ⟨ht.2.1, h.nodup⟩
  · intro x hx
    rw [hs.procs] at hx
    rcases List.mem_cons.mp hx with rfl | hx
    · rw [hs.proc, if_pos rfl]
      exact hs.onRing_new h1 hut1 htail
    · have hxp : x ≠ p := fun heq => hp.2.2 (heq ▸ hx)
      rw [hs.proc, if_neg hxp, hq.thread x (h.procs_eq ▸ hx)]
      exact hs.onRing h1 hut1 ((h.ring x hx).congr h.closed hq.head hq.next)
  · intro x hx w sti
    rw [hs.thrds] at hx
    have hx' : x = t ∨ x ∈ knownThrds (overwrite s reused mt mp) :=
      (List.mem_cons.mp hx).imp_right fun hx => h.thrds_eq ▸ hx
    rw [hs.ctx_eq hut1 h1.curr x hx']
    split
    · simp
    case isFalse hxt =>
      rw [hq.ctx_eq (hx'.resolve_left hxt)]
      have hx : x ∈ s.thrds := (List.mem_cons.mp hx).resolve_left hxt
      split
      case isTrue heq =>
        have hstage := h.stage x hx w sti
        rwa [heq, ctx_curr] at hstage
      case isFalse => exact h.stage x hx w sti

theorem Unreaped.running_ne {s : System} (h : Unreaped s) (w : WaitCall) (sti : Bool) :
    s.running ≠ .waitTail w .freeProcess sti := by
  have hstage := h.stage s.currThread (h.thrds_eq ▸ h.closed.curr) w sti
  rwa [ctx_curr] at hstage

/-- `uprocess_remove` changes links of the list only. -/
theorem uprocessRemove_some {s s' : System} {pid : Nat} (h : Closed s)
    (hremove : uprocessRemove s pid = some s') :
    ∃ (l : Ptr) (nx : Ptr → Ptr),
      s' = { s with processList := l, proc := fun x => { s.proc x with next := nx x } } := by
  rcases uprocessRemoveLoop_some h (Or.inl rfl) h.list hremove with
    rfl | ⟨prev, p, -, -, -, rfl⟩
  · exact ⟨s'.processList, fun x => (s'.proc x).next, rfl⟩
  · split
    · exact ⟨(s.proc p).next, fun x => (s.proc x).next, rfl⟩
    · refine ⟨s.processList, fun x => if x = prev then (s.proc p).next else (s.proc x).next, ?_⟩
      unfold setProc
      congr 1
      funext x
      rw [Function.update_apply]
      split
      case isTrue hx => simp [hx]
      case isFalse hx => simp [hx]

/-- The statements of `sys_wait` up to the first `kfree` of a record. -/
theorem unreaped_waitStatement {s s' : System} (h : Unreaped s) (hc : Closed s') {w : WaitCall}
    {stmt : WaitStmt} {sti : Bool} (hrun : s.running = .waitTail w stmt sti)
    (hstmt : stmt ≠ .freeThread) (hstep : waitStatement s w sti stmt = some s') : Unreaped s' := by
  cases stmt with
  | freeThread => exact absurd rfl hstmt
  | freeProcess => exact absurd hrun (h.running_ne w sti)
  | remove =>
    obtain ⟨s1, hremove, rfl⟩ := Option.map_eq_some_iff.mp hstep
    have hstage : ∀ t ∈ s.thrds, ∀ w' sti', (if t = s.currThread then Cont.waitTail w .freeStack sti
        else (s.thread t).esp) ≠ .waitTail w' .freeProcess sti' := by
      intro t ht w' sti'
      split
      · simp
      case isFalse hne =>
        rw [← ctx_of_ne hne]
        exact h.stage t ht w' sti'
    obtain ⟨l, nx, rfl⟩ := uprocessRemove_some h.closed hremove
    exact h.of_ring hc ⟨rfl, rfl, rfl, rfl⟩ rfl (fun _ _ => rfl) (fun _ _ => rfl) hstage
  | store | freeStack | ret =>
    obtain rfl := Option.some.inj hstep
    exact h.of_quiet hc (quiet_globals s _ _ _ _) ⟨rfl, rfl, rfl, rfl⟩ (by simp)

/-- **One step** that is not the `kfree` of a thread keeps the invariant. -/
theorem unreaped_step {s s' : System} {e : Event} (h : Unreaped s) (hstep : SysStep s e s')
    (he : e ≠ .waitStatement .freeThread) : Unreaped s' := by
  have hc : Closed s' := closed_step h.closed (h.noReuse e) hstep
  have hno : ∀ x : Ptr, x ∉ s.freedThrds ∧ x ∉ s.freedProcs := by
    simp [h.freedThrds, h.freedProcs]
  cases hstep with
  | spawn _ _ hfree hp ht _ _ _ hspawn => exact unreaped_spawn h hc hfree hp ht hspawn
  | spawnFailed _ _ hfree =>
    exact h.of_quiet hc (quiet_overwrite hfree fun x _ => hno x) ⟨rfl, rfl, rfl, rfl⟩ h.running_ne
  | exit => exact h.of_quiet hc (quiet_sysExit s _) (sameLists_sysExit s _) (by simp [sysExit])
  | wait _ _ hwait =>
    have hq := quiet_sysWait hwait
    rcases sysWait_some hwait with rfl | ⟨w, -, ⟨-, rfl⟩ | ⟨-, rfl⟩⟩
    · exact h
    · exact h.of_quiet hc hq ⟨rfl, rfl, rfl, rfl⟩ (by simp [waitBlock])
    · exact h.of_quiet hc hq ⟨rfl, rfl, rfl, rfl⟩ (by simp)
  | waitEnds => exact h.of_quiet hc (quiet_globals s _ _ _ _) ⟨rfl, rfl, rfl, rfl⟩ (by simp)
  | waitStatement hrun _ _ hstep =>
    exact unreaped_waitStatement h hc hrun (fun heq => he (heq ▸ rfl)) hstep
  | waitReturn hrun _ hstep => exact unreaped_waitStatement h hc hrun (by simp) hstep
  | ttyRead =>
    refine h.of_quiet hc (quiet_ttyReadLoop s _) (sameLists_ttyReadLoop s _) fun w sti => ?_
    unfold ttyReadLoop
    split <;> simp
  | ttyResume =>
    have hl := sameLists_ttyReadLoop (setThread s s.currThread fun r => { r with state := .running })
    refine h.of_quiet hc ((quiet_threadState s _ _).trans (quiet_ttyReadLoop _ _))
      ⟨(hl _).thrds, (hl _).procs, (hl _).freedThrds, (hl _).freedProcs⟩ fun w sti => ?_
    unfold ttyResume ttyReadLoop
    split <;> simp
  | @irq src =>
    have hl := sameLists_irqHandler s src
    refine h.of_quiet hc ((quiet_irqHandler s src).trans (quiet_globals _ _ _ _ _))
      ⟨hl.thrds, hl.procs, hl.freedThrds, hl.freedProcs⟩ fun w sti hrun => ?_
    apply h.running_ne w sti
    change s.running.afterHlt = _ at hrun
    cases hr : s.running <;> simp_all [Cont.afterHlt]
  | irqReturn => exact h.of_quiet hc (quiet_globals s _ _ _ _) ⟨rfl, rfl, rfl, rfl⟩ h.running_ne
  | switch _ _ _ hswitch =>
    have h1 : Closed { s with schedulePending := false } :=
      h.closed.of_quiet (quiet_globals s _ _ _ _) fun w hw =>
        h.closed.child _ h.closed.curr w (by rw [ctx_curr]; exact hw)
    have hs := schedulerSwitch_switched h1 hswitch
    have hl := sameLists_switch hswitch
    refine h.of_links hc
      ((quiet_globals s _ _ _ _).toSameLinks.trans
        (hs.toSameLinks.trans (quiet_globals _ _ _ _ _).toSameLinks))
      ⟨hl.thrds, hl.procs, hl.freedThrds, hl.freedProcs⟩ fun t ht w sti => ?_
    have hctx := hs.ctx t
    exact fun heq => h.stage t ht w sti (hctx.symm.trans heq)

/-! ## Runs -/

theorem Booted.unreaped {b : Boot} {s : System} (h : Booted b s) : Unreaped s := by
  obtain ⟨cidle, cmain, cinit⟩ := h.ctx
  obtain ⟨_, hidle⟩ := h.idle
  obtain ⟨_, hmain⟩ := h.main
  have hd := b.distinct
  refine ⟨h.closed, h.freedThrds, h.freedProcs, ?_, ?_, ?_⟩
  · rw [h.thrds]
    simp only [List.nodup_cons, List.mem_cons, List.not_mem_nil, or_false, not_or,
      not_false_eq_true, List.nodup_nil, and_true] at hd ⊢
    obtain ⟨⟨him, hii, -⟩, ⟨hmi, -⟩, -⟩ := hd
    exact ⟨⟨Ne.symm hmi, Ne.symm hii⟩, Ne.symm him⟩
  · have hring : OnRing s b.initThread := by
      have hnext := OnRing.next (OnRing.next (OnRing.head (s := s)))
      rwa [h.head, hidle, hmain] at hnext
    simpa [h.procs, h.init] using hring
  · simp [h.thrds, cidle, cmain, cinit]

theorem unreaped_run {s s' : System} {es : List Event} (hrun : Run SysStep s es s')
    (h : Unreaped s) (hes : .waitStatement .freeThread ∉ es) : Unreaped s' := by
  induction hrun with
  | refl => exact h
  | step hstep _ ih =>
    obtain ⟨he, hes⟩ := not_or.mp (fun hmem => hes (List.mem_cons.mpr hmem))
    exact ih (unreaped_step h hstep (Ne.symm he)) hes

/-- The thread that `sys_wait` frees is on the ring. -/
theorem freeThread_dangles {s s' : System} (h : Unreaped s)
    (hstep : SysStep s (.waitStatement .freeThread) s') : ¬ NoDangling s' := by
  intro hno
  cases hstep with
  | @waitStatement _ w _ sti hrun _ _ hstep =>
  obtain rfl := Option.some.inj hstep
  have hchild : w.child ∈ s.procs := by
    rw [← h.procs_eq]
    exact h.closed.child s.currThread h.closed.curr w (by rw [ctx_curr, hrun]; rfl)
  have hring : OnRing { kfreeThread s (s.proc w.child).thread with
      running := .waitTail w .freeProcess sti } (s.proc w.child).thread := by
    refine OnRing.congr h.closed ?_ ?_ (h.ring _ hchild)
    · rfl
    · exact fun _ _ => rfl
  have hmem : (s.proc w.child).thread ∈ s.thrds.erase (s.proc w.child).thread := hno.ring _ hring
  exact (h.nodup.not_mem_erase) hmem

/-- **Freed memory in use.**  In every state of a run from boot all threads on
the ring and all processes in reach are allocated, exactly when no `sys_wait`
of the run gets as far as to `kfree` the thread of its child. -/
theorem noDangling_iff {b : Boot} {s₀ s : System} {es : List Event} (hboot : kmain b = some s₀)
    (hrun : Run SysStep s₀ es s) :
    (∀ past rest t, es = past ++ rest → Run SysStep s₀ past t → Run SysStep t rest s →
      NoDangling t) ↔ .waitStatement .freeThread ∉ es := by
  have h₀ := (kmain_booted hboot).unreaped
  constructor
  · intro hall hmem
    obtain ⟨past, rest, rfl, hfirst⟩ := List.eq_append_cons_of_mem hmem
    obtain ⟨t, hpast, hrest⟩ := hrun.of_append
    obtain ⟨t', hstep, hrest'⟩ := hrest.of_cons
    have ht := unreaped_run hpast h₀ hfirst
    refine freeThread_dangles ht hstep (hall (past ++ [_]) rest t' (by simp) (hpast.snoc hstep) hrest')
  · intro hes past rest t heq hpast _
    refine (unreaped_run hpast h₀ fun hmem => hes ?_).noDangling
    rw [heq]
    exact List.mem_append_left _ hmem

/-- Init spawns a child, the child exits, and init awaits it. -/
def reapScript : List Choice :=
  tick ++ [.spawn 0x50 0x60 0x3000] ++ tick ++ [.exit 7, .irq .other, .switch] ++ tick ++ tick ++
    [.wait 2 0]

/-- Up to the last statement before the `kfree` nothing dangles. -/
theorem reapScript_noDangling : ∃ s₀ es s, kmain smallBoot = some s₀ ∧ Run SysStep s₀ es s ∧
    (∃ w, s.running = .waitTail w .freeThread false) ∧ NoDangling s := by
  obtain ⟨s₀, es, s, hboot, hrun, hP⟩ := playBoot_run (reapScript ++ [.waitOn, .waitOn, .waitOn])
    (fun es s => decide (Event.waitStatement .freeThread ∉ es) &&
      decide (s.running = .waitTail ⟨2, 0, 0x50, none⟩ .freeThread false)) (by decide +kernel)
  simp only [Bool.and_eq_true, decide_eq_true_eq] at hP
  exact ⟨s₀, es, s, hboot, hrun, ⟨_, hP.2⟩,
    (noDangling_iff hboot hrun).mpr hP.1 es [] s (by simp) hrun (.refl s)⟩

/-- The next statement frees a thread that the ring still leads to. -/
theorem reapScript_dangles : ∃ s₀ es s, kmain smallBoot = some s₀ ∧ Run SysStep s₀ es s ∧
    ¬ NoDangling s := by
  obtain ⟨s₀, es, s, hboot, hrun, hP⟩ :=
    playBoot_run (reapScript ++ [.waitOn, .waitOn, .waitOn, .waitOn])
      (fun _ s => !s.thrds.contains (s.thread (s.thread (s.thread s.threadListHead).next).next).next)
      (by decide +kernel)
  refine ⟨s₀, es, s, hboot, hrun, fun hno => ?_⟩
  have hring := hno.ring _ (.next (.next (.next .head)))
  simp [hring] at hP

end FrogKernel.Process
