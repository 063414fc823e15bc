import FrogKernel.Userspace.Known

/-!
# Every step keeps the pointers closed

The three kinds of step that are not quiet: a switch (`Switched`), a new
process (`Spawned`) and a removal from the process list.

`closed_step`: as long as `sys_spawn` does not get memory of freed records,
every step keeps `Closed`.
-/

namespace FrogKernel.Process

open FrogKernel.DList FrogKernel.Tty FrogKernel.Runs

/-! ## `scheduler_switch` -/

/-- `curr_thread->esp = old_esp` -/
def saveEsp (s : System) : System := setThread s s.currThread fun r => { r with esp := s.running }

theorem schedulerSwitch_some {s s' : System} {next : Ptr}
    (hswitch : schedulerSwitch s = some (next, s')) :
    schedulerNext (saveEsp s) = some next ∧
      (next = s.currThread ∧ s' = saveEsp s ∨
        next ≠ s.currThread ∧ s' = switchTo (saveEsp s) s.currThread next) := by
  obtain ⟨t, hnext, hs'⟩ := Option.map_eq_some_iff.mp hswitch
  split at hs'
  case isTrue heq =>
    obtain ⟨rfl, rfl⟩ := Prod.mk.inj hs'
    exact ⟨hnext, Or.inl ⟨heq, rfl⟩⟩
  case isFalse hne =>
    obtain ⟨rfl, rfl⟩ := Prod.mk.inj hs'
    exact ⟨hnext, Or.inr ⟨hne, rfl⟩⟩

/-- The scheduler picks a known thread: a runnable one or the idle thread. -/
theorem schedulerNextLoop_some {s : System} (hnext : ∀ t ∈ knownThrds s, (s.thread t).next ∈ knownThrds s)
    (hidle : s.idleThread ∈ knownThrds s) {start : Ptr} :
    ∀ {n : Nat} {t r : Ptr}, t ∈ knownThrds s → schedulerNextLoop s start n t = some r →
      r ∈ knownThrds s ∧
        (r = s.idleThread ∨ (s.thread r).state = .ready ∨ (s.thread r).state = .running)
  | 0, _, _, _, hloop => by simp [schedulerNextLoop] at hloop
  | n + 1, t, r, ht, hloop => by
    unfold schedulerNextLoop at hloop
    split at hloop
    · simp at hloop
    split at hloop
    case isTrue =>
      dsimp only at hloop
      split at hloop
      · obtain rfl := Option.some.inj hloop
        exact ⟨hidle, Or.inl rfl⟩
      · exact schedulerNextLoop_some hnext hidle (hnext t ht) hloop
    case isFalse hstate =>
      obtain rfl := Option.some.inj hloop
      refine ⟨ht, Or.inr ?_⟩
      by_contra hnone
      exact hstate (not_or.mp hnone)

theorem schedulerNext_some {s : System} (h : Closed s) {r : Ptr} (hnext : schedulerNext s = some r) :
    r ∈ knownThrds s ∧
      (r = s.idleThread ∨ (s.thread r).state = .ready ∨ (s.thread r).state = .running) := by
  unfold schedulerNext at hnext
  split at hnext
  · obtain rfl := Option.some.inj hnext
    exact ⟨h.idle, Or.inl rfl⟩
  · exact schedulerNextLoop_some h.next h.idle (h.next _ h.curr) hnext

theorem saveEsp_thread (s : System) (t : Ptr) :
    (saveEsp s).thread t = { s.thread t with esp := ctx s t } := by
  unfold saveEsp ctx
  rw [setThread_thread]
  split
  case isTrue ht => rw [ht]
  case isFalse => rfl

theorem ctx_saveEsp (s : System) (t : Ptr) : ctx (saveEsp s) t = ctx s t := by
  change (if t = s.currThread then s.running else ((saveEsp s).thread t).esp) = _
  rw [saveEsp_thread]
  unfold ctx
  split <;> rfl

theorem sameLinks_saveEsp (s : System) : SameLinks s (saveEsp s) :=
  { Quiet.refl s with
    next := fun t _ => by rw [saveEsp_thread]
    process := fun t _ => by rw [saveEsp_thread] }

/-- **A switch** moves contexts about and changes no context. -/
structure Switched (s s' : System) (r : Ptr) : Prop extends SameLinks s s' where
  known : r ∈ knownThrds s
  currThread : s'.currThread = r
  currProcess : s'.currProcess = (s'.thread r).process
  ctx : ∀ t, ctx s' t = ctx s t

theorem quiet_switchStates (s : System) (old next : Ptr) :
    Quiet s (setThread (setThread s old fun r => { r with state := .ready }) next
      fun r => { r with state := .running }) :=
  (quiet_threadState s old .ready).trans (quiet_threadState _ next .running)

theorem switchStates_esp (s : System) (old next t : Ptr) :
    ((setThread (setThread s old fun r => { r with state := .ready }) next
      fun r => { r with state := .running }).thread t).esp = (s.thread t).esp := by
  rw [setThread_thread, setThread_thread, setThread_thread]
  by_cases htn : t = next <;> by_cases hto : t = old <;> by_cases hno : next = old <;>
    simp_all

theorem schedulerSwitch_switched {s s' : System} (h : Closed s) {next : Ptr}
    (hswitch : schedulerSwitch s = some (next, s')) : Switched s s' next := by
  obtain ⟨hnext, hcases⟩ := schedulerSwitch_some hswitch
  have hsave := sameLinks_saveEsp s
  have hsaved : Closed (saveEsp s) := by
    refine h.of_sameLinks hsave h.curr ?_ fun t ht w hw => ?_
    · change s.currProcess = ((saveEsp s).thread s.currThread).process
      rw [saveEsp_thread]
      exact h.currProcess
    · rw [ctx_saveEsp] at hw
      exact h.child t ht w hw
  have hknown := (schedulerNext_some hsaved hnext).1
  rcases hcases with ⟨rfl, rfl⟩ | ⟨hne, rfl⟩
  · exact { hsave with
      known := hknown, currThread := rfl, currProcess := hsaved.currProcess, ctx := ctx_saveEsp s }
  · have hquiet := quiet_switchStates (saveEsp s) s.currThread next
    refine { hsave.trans hquiet.toSameLinks with
      known := hknown, currThread := rfl, currProcess := rfl, ctx := fun t => ?_ }
    have hesp := switchStates_esp (saveEsp s) s.currThread next
    have hctx : ctx (switchTo (saveEsp s) s.currThread next) t =
        if t = next then ((saveEsp s).thread next).esp else ((saveEsp s).thread t).esp := by
      rw [← hesp next, ← hesp t]
      rfl
    rw [hctx, saveEsp_thread, saveEsp_thread]
    split
    case isTrue ht => rw [ht]
    case isFalse => rfl

theorem Closed.of_switched {s s' : System} (h : Closed s) {next : Ptr} (hs : Switched s s' next) :
    Closed s' := by
  refine h.of_sameLinks hs.toSameLinks ?_ ?_ fun t ht w hw => ?_
  · rw [hs.currThread]
    exact hs.known
  · rw [hs.currThread]
    exact hs.currProcess
  · rw [hs.ctx] at hw
    exact h.child t ht w hw

/-! ## `sys_spawn` -/

/-- What `sys_spawn` changes: the new records, and the link of the last thread
of the ring. -/
structure Spawned (s : System) (p t pageDir : Ptr) (tail : Ptr) (s' : System) : Prop where
  tail_next : (s.thread tail).next = s.threadListHead
  thread : ∀ x, s'.thread x =
    if x = t then
      { esp := .user, stackBase := s.largeAllocBase, stackSize := KSTACK_SIZE, state := .ready
        process := p, next := s.threadListHead }
    else if x = tail then { s.thread x with next := t }
    else s.thread x
  proc : ∀ x, s'.proc x =
    if x = p then
      { pid := s.nextPid, pageDir, thread := t, state := .running, parent := s.currProcess
        next := s.processList, exitCode := 0 }
    else s.proc x
  head : s'.threadListHead = s.threadListHead
  idle : s'.idleThread = s.idleThread
  currThread : s'.currThread = s.currThread
  currProcess : s'.currProcess = s.currProcess
  list : s'.processList = p
  nextPid : s'.nextPid = (s.nextPid + 1) % 2 ^ 32
  largeAllocBase : s'.largeAllocBase = s.largeAllocBase + KSTACK_SIZE
  pending : s'.schedulePending = s.schedulePending
  loaded : s'.cr3 = s.cr3 ∧ s'.kernelPdPhys = s.kernelPdPhys ∧ s'.tssEsp0 = s.tssEsp0
  running : s'.running = s.running
  inIrq : s'.inIrq = s.inIrq
  thrds : s'.thrds = t :: s.thrds
  procs : s'.procs = p :: s.procs
  freedThrds : s'.freedThrds = (s.freedThrds.erase p).erase t
  freedProcs : s'.freedProcs = (s.freedProcs.erase p).erase t

/-- The last thread of a ring is found in every set that contains the head and
is closed under the links. -/
theorem ringTail_some {s : System} {P : Ptr → Prop} (hhead : P s.threadListHead)
    (hnext : ∀ x, P x → P (s.thread x).next) {tail : Ptr} (htail : ringTail s = some tail) :
    P tail ∧ (s.thread tail).next = s.threadListHead := by
  obtain ⟨hwalk, hpos⟩ := Option.filter_eq_some_iff.mp htail
  obtain ⟨hP, hcont⟩ := walkWhile_some (fun x hx _ => hnext x hx) hhead hwalk
  refine ⟨hP, ?_⟩
  simpa [of_decide_eq_true hpos] using hcont

/-- `sys_spawn` before `scheduler_add`. -/
def spawnRecords (s : System) (p t pageDir : Ptr) : System :=
  setProc (uprocessCreate s p t pageDir) p fun r => { r with parent := s.currProcess }

theorem spawnRecords_thread (s : System) (p t pageDir x : Ptr) :
    (spawnRecords s p t pageDir).thread x =
      if x = t then
        { esp := .user, stackBase := s.largeAllocBase, stackSize := KSTACK_SIZE, state := .ready
          process := p, next := 0 }
      else s.thread x :=
  Function.update_apply ..

theorem spawnRecords_proc (s : System) (p t pageDir x : Ptr) :
    (spawnRecords s p t pageDir).proc x =
      if x = p then
        { pid := s.nextPid, pageDir, thread := t, state := .running, parent := s.currProcess
          next := s.processList, exitCode := 0 }
      else s.proc x := by
  simp only [spawnRecords, uprocessCreate, processListAdd, setProc, setThread, kallocPages,
    kmallocThread, kmallocProc, Function.update_idem, Function.update_self, Function.update_apply]

theorem sysSpawn_spawned {s s' : System} {p t pageDir : Ptr} {P : Ptr → Prop}
    (hspawn : sysSpawn s p t pageDir = some s') (hpos : s.threadListHead ≠ 0)
    (hhead : P s.threadListHead) (hnext : ∀ x, P x → P (s.thread x).next) (ht : ¬ P t) :
    ∃ tail, P tail ∧ Spawned s p t pageDir tail s' := by
  have hadd : schedulerAdd (spawnRecords s p t pageDir) t = some s' := by
    have hthread : ((spawnRecords s p t pageDir).proc p).thread = t := by
      rw [spawnRecords_proc, if_pos rfl]
    rw [← hspawn, sysSpawn]
    exact congrArg _ hthread.symm
  have hold : ∀ x, P x → (spawnRecords s p t pageDir).thread x = s.thread x := by
    intro x hx
    have hne : x ≠ t := fun hxt => ht (hxt ▸ hx)
    rw [spawnRecords_thread, if_neg hne]
  unfold schedulerAdd at hadd
  split at hadd
  case isTrue hnull => exact absurd hnull hpos
  case isFalse =>
    obtain ⟨tail, htail, rfl⟩ := Option.map_eq_some_iff.mp hadd
    have hnext' : ∀ x, P x → P ((spawnRecords s p t pageDir).thread x).next := fun x hx =>
      hold x hx ▸ hnext x hx
    obtain ⟨hP, hlast⟩ := ringTail_some (P := P) (s := spawnRecords s p t pageDir) hhead hnext' htail
    rw [hold tail hP] at hlast
    have htne : t ≠ tail := fun heq => ht (heq ▸ hP)
    refine ⟨tail, hP,
      { tail_next := hlast, thread := fun x => ?_, proc := spawnRecords_proc s p t pageDir
        head := rfl, idle := rfl, currThread := rfl, currProcess := rfl, list := rfl
        nextPid := rfl, largeAllocBase := rfl, pending := rfl, loaded := ⟨rfl, rfl, rfl⟩, running := rfl
        inIrq := rfl, thrds := rfl, procs := rfl, freedThrds := rfl, freedProcs := rfl }⟩
    rw [setThread_thread, setThread_thread, setThread_thread, if_neg htne,
      spawnRecords_thread, spawnRecords_thread, spawnRecords_thread, if_pos rfl,
      if_neg htne.symm]
    by_cases hxt : x = t
    · simp [hxt]
      rfl
    · by_cases hxtail : x = tail
      · simp [hxtail, htne.symm]
      · simp [hxt, hxtail]

/-- A record that was neither allocated nor freed before. -/
structure Unknown (s : System) (x : Ptr) : Prop where
  thrd : x ∉ knownThrds s
  proc : x ∉ knownProcs s

theorem Fresh.unknown {s : System} {x : Ptr} (h : Fresh s x)
    (hx : x ∉ s.freedThrds ∧ x ∉ s.freedProcs) : Unknown s x :=
  ⟨fun hk => (List.mem_append.mp hk).elim h.2.1 hx.1,
    fun hk => (List.mem_append.mp hk).elim h.2.2 hx.2⟩

section Spawned

variable {s s' : System} {p t pageDir tail : Ptr}

theorem Spawned.mem_thrds (hs : Spawned s p t pageDir tail s') (hp : Unknown s p) (ht : Unknown s t)
    (x : Ptr) : x ∈ knownThrds s' ↔ x = t ∨ x ∈ knownThrds s := by
  have hp' : p ∉ s.freedThrds := fun h => hp.thrd (List.mem_append_right _ h)
  have ht' : t ∉ s.freedThrds := fun h => ht.thrd (List.mem_append_right _ h)
  rw [knownThrds, hs.thrds, hs.freedThrds, List.erase_of_not_mem hp', List.erase_of_not_mem ht']
  exact List.mem_cons

theorem Spawned.mem_procs (hs : Spawned s p t pageDir tail s') (hp : Unknown s p) (ht : Unknown s t)
    (x : Ptr) : x ∈ knownProcs s' ↔ x = p ∨ x ∈ knownProcs s := by
  have hp' : p ∉ s.freedProcs := fun h => hp.proc (List.mem_append_right _ h)
  have ht' : t ∉ s.freedProcs := fun h => ht.proc (List.mem_append_right _ h)
  rw [knownProcs, hs.procs, hs.freedProcs, List.erase_of_not_mem hp', List.erase_of_not_mem ht']
  exact List.mem_cons

/-- Nothing but the link of the last thread changes in a known record. -/
theorem Spawned.thread_known (hs : Spawned s p t pageDir tail s') (ht : Unknown s t) {x : Ptr}
    (hx : x ∈ knownThrds s) :
    s'.thread x = { s.thread x with next := if x = tail then t else (s.thread x).next } := by
  have hxt : x ≠ t := fun heq => ht.thrd (heq ▸ hx)
  rw [hs.thread, if_neg hxt]
  split <;> rfl

theorem Spawned.proc_known (hs : Spawned s p t pageDir tail s') (hp : Unknown s p) {x : Ptr}
    (hx : x ∈ knownProcs s) : s'.proc x = s.proc x := by
  have hxp : x ≠ p := fun heq => hp.proc (heq ▸ hx)
  rw [hs.proc, if_neg hxp]

theorem Spawned.ctx_eq (hs : Spawned s p t pageDir tail s') (ht : Unknown s t)
    (hcurr : s.currThread ∈ knownThrds s) (x : Ptr) (hx : x = t ∨ x ∈ knownThrds s) :
    ctx s' x = if x = t then .user else ctx s x := by
  unfold ctx
  rw [hs.currThread, hs.running]
  rcases hx with rfl | hx
  · have hne : x ≠ s.currThread := fun heq => ht.thrd (heq ▸ hcurr)
    rw [if_neg hne, if_pos rfl, hs.thread, if_pos rfl]
  · have hxt : x ≠ t := fun heq => ht.thrd (heq ▸ hx)
    rw [if_neg hxt, hs.thread_known ht hx]

theorem Closed.of_spawned (h : Closed s) (hs : Spawned s p t pageDir tail s')
    (hp : Unknown s p) (ht : Unknown s t) (hp0 : p ≠ 0) (ht0 : t ≠ 0) : Closed s' := by
  have hT := hs.mem_thrds hp ht
  have hP := hs.mem_procs hp ht
  have hnull : ∀ {x}, NullOr x (knownProcs s) → NullOr x (knownProcs s') :=
    fun hx => hx.imp_right fun hx => (hP _).mpr (Or.inr hx)
  have hcurr : NullOr s.currProcess (knownProcs s) := h.currProcess ▸ h.process _ h.curr
  constructor
  · rw [hT]
    exact fun h0 => h0.elim ht0.symm h.thrds_pos
  · rw [hP]
    exact fun h0 => h0.elim hp0.symm h.procs_pos
  · rw [hT, hs.head]
    exact Or.inr h.head
  · rw [hT, hs.idle]
    exact Or.inr h.idle
  · rw [hT, hs.currThread]
    exact Or.inr h.curr
  · intro x hx
    rw [hT]
    rcases (hT x).mp hx with rfl | hx
    · rw [hs.thread, if_pos rfl]
      exact Or.inr h.head
    · rw [hs.thread_known ht hx]
      dsimp only
      split
      · exact Or.inl rfl
      · exact Or.inr (h.next x hx)
  · intro x hx
    rcases (hT x).mp hx with rfl | hx
    · rw [hs.thread, if_pos rfl]
      exact Or.inr ((hP p).mpr (Or.inl rfl))
    · rw [hs.thread_known ht hx]
      exact hnull (h.process x hx)
  · rw [hs.currProcess, hs.currThread, hs.thread_known ht h.curr]
    exact h.currProcess
  · rw [hs.list]
    exact Or.inr ((hP p).mpr (Or.inl rfl))
  · intro x hx
    rcases (hP x).mp hx with rfl | hx
    · rw [hs.proc, if_pos rfl]
      exact hnull h.list
    · rw [hs.proc_known hp hx]
      exact hnull (h.listNext x hx)
  · intro x hx
    rcases (hP x).mp hx with rfl | hx
    · rw [hs.proc, if_pos rfl]
      exact hnull hcurr
    · rw [hs.proc_known hp hx]
      exact hnull (h.parent x hx)
  · intro x hx
    rw [hT]
    rcases (hP x).mp hx with rfl | hx
    · rw [hs.proc, if_pos rfl]
      exact Or.inl rfl
    · rw [hs.proc_known hp hx]
      exact Or.inr (h.thread x hx)
  · intro x hx w hw
    rw [hs.ctx_eq ht h.curr x ((hT x).mp hx)] at hw
    rw [hP]
    split at hw
    · simp [Cont.call?] at hw
    case isFalse hxt => exact Or.inr (h.child x (((hT x).mp hx).resolve_left hxt) w hw)

end Spawned

/-! ## Every step -/

/-- A successful `sys_spawn`, seen from the state with the overwritten memory. -/
theorem spawn_step {s s' : System} (h : Closed s) {p t pageDir : Ptr} {reused : List Ptr}
    {mt : Ptr → ThreadT} {mp : Ptr → ProcessT} (hfree : Unallocated s reused) (hp : Fresh s p)
    (ht : Fresh s t)
    (hreuse : ∀ x, x = p ∨ x = t ∨ x ∈ reused → x ∉ s.freedThrds ∧ x ∉ s.freedProcs)
    (hspawn : sysSpawn (overwrite s reused mt mp) p t pageDir = some s') :
    Quiet s (overwrite s reused mt mp) ∧ Unknown s p ∧ Unknown s t ∧
      ∃ tail ∈ knownThrds s, Spawned (overwrite s reused mt mp) p t pageDir tail s' := by
  have hquiet : Quiet s (overwrite s reused mt mp) :=
    quiet_overwrite hfree fun x hx => hreuse x (Or.inr (Or.inr hx))
  have hup := hp.unknown (hreuse p (Or.inl rfl))
  have hut := ht.unknown (hreuse t (Or.inr (Or.inl rfl)))
  have hpos : s.threadListHead ≠ 0 := fun h0 => h.thrds_pos (h0 ▸ h.head)
  have hnext : ∀ x, x ∈ knownThrds s →
      ((overwrite s reused mt mp).thread x).next ∈ knownThrds s := fun x hx => by
    rw [hquiet.next x hx]
    exact h.next x hx
  obtain ⟨tail, htail, hs⟩ := sysSpawn_spawned (P := (· ∈ knownThrds s)) hspawn hpos h.head hnext hut.thrd
  exact ⟨hquiet, hup, hut, tail, htail, hs⟩

/-- **Closure.**  Without reuse of freed memory every step keeps it. -/
theorem closed_step {s s' : System} {e : Event} (h : Closed s) (hreuse : NoReuse s e)
    (hstep : SysStep s e s') : Closed s' := by
  have hself : ∀ w, s.running.call? = some w → w.child ∈ knownProcs s := fun w hw =>
    h.child s.currThread h.curr w (by rw [ctx_curr]; exact hw)
  cases hstep with
  | spawn hrun _ hfree hp ht _ _ _ hspawn =>
    obtain ⟨hquiet, hup, hut, tail, -, hs⟩ := spawn_step h hfree hp ht hreuse hspawn
    have h1 : Closed (overwrite s _ _ _) := h.of_quiet hquiet hself
    exact h1.of_spawned hs ⟨hup.thrd, hup.proc⟩ ⟨hut.thrd, hut.proc⟩ hp.1 ht.1
  | spawnFailed _ _ hfree => exact h.of_quiet (quiet_overwrite hfree hreuse) hself
  | exit => exact h.of_quiet (quiet_sysExit s _) (fun w hw => by simp [sysExit, Cont.call?] at hw)
  | wait _ _ hwait =>
    refine h.of_quiet (quiet_sysWait hwait) fun w hw => ?_
    rcases sysWait_some hwait with rfl | ⟨w', hawaits, hcases⟩
    · exact hself w hw
    · have hchild := (uprocessFind_some h hawaits.find hawaits.child).1
      rcases hcases with ⟨-, rfl⟩ | ⟨-, rfl⟩
      · obtain rfl := Option.some.inj hw
        exact hchild
      · obtain rfl := Option.some.inj hw
        exact hchild
  | waitEnds hrun =>
    refine h.of_quiet (quiet_globals s _ _ _ _) fun w hw => ?_
    obtain rfl := Option.some.inj hw
    exact hself _ (by rw [hrun]; rfl)
  | @waitStatement _ w stmt sti hrun _ _ hstep =>
    by_cases hstmt : stmt = .remove
    · subst hstmt
      exact closed_remove h hrun hstep
    · refine h.of_quiet (quiet_waitStatement h hrun hstmt hstep) fun w' hw => ?_
      have hchild := hself w (by rw [hrun]; rfl)
      cases stmt <;> first | exact absurd rfl hstmt | skip
      all_goals
        obtain rfl := Option.some.inj hstep
        first
          | (obtain rfl := Option.some.inj hw; exact hchild)
          | simp [Cont.call?] at hw
  | waitReturn hrun _ hstep =>
    obtain rfl := Option.some.inj hstep
    exact h.of_quiet (quiet_globals s _ _ _ _) (fun w hw => by simp [Cont.call?] at hw)
  | ttyRead =>
    refine h.of_quiet (quiet_ttyReadLoop s _) fun w hw => ?_
    unfold ttyReadLoop at hw
    split at hw <;> simp [Cont.call?] at hw
  | ttyResume =>
    refine h.of_quiet ((quiet_threadState s _ _).trans (quiet_ttyReadLoop _ _)) fun w hw => ?_
    unfold ttyResume ttyReadLoop at hw
    split at hw <;> simp [Cont.call?] at hw
  | @irq src =>
    refine h.of_quiet ((quiet_irqHandler s src).trans (quiet_globals _ _ _ _ _)) fun w hw => ?_
    refine hself w ?_
    rw [← hw]
    cases s.running <;> rfl
  | irqReturn => exact h.of_quiet (quiet_globals s _ _ _ _) hself
  | switch _ _ _ hswitch =>
    have h1 : Closed { s with schedulePending := false } :=
      h.of_quiet (quiet_globals s _ _ _ _) hself
    have h2 := h1.of_switched (schedulerSwitch_switched h1 hswitch)
    exact h2.of_quiet (quiet_globals _ _ _ _ _)
      (fun w hw => h2.child _ h2.curr w (by rw [ctx_curr]; exact hw))

end FrogKernel.Process
