import FrogKernel.Lib.Rotation
import FrogKernel.Thread.SchedulerRing
import FrogKernel.Userspace.Switching

/-!
# Whose turn it is (`thread/kthread.c`)

`scheduler_next` looks for a thread that is ready, but `scheduler_switch` marks
every thread that it leaves as ready.  So until `sys_wait` has freed a thread the
scheduler goes around the ring seat by seat, past no blocked and no dead thread.

Main results:

* `round_robin`: the switches of a run are the turns of a rota;
* `turns_fair`: no thread waits for longer than there are threads.
-/

namespace FrogKernel.Process

open FrogKernel.Links FrogKernel.Rotation FrogKernel.Runs

/-- What an event is for the rota. -/
def Event.turn : Event → Turn Ptr
  | .switch old next => .advance old next
  | .spawn _ _ _ t _ => .join t
  | _ => .pass

/-- The rota that `kmain` leaves. -/
def kmainRota (b : Boot) : Rota Ptr := ⟨[b.idle], b.main, [b.initThread]⟩

/-- The system takes turns by the rota. -/
structure OnDuty (s : System) (r : Rota Ptr) : Prop where
  unreaped : Unreaped s
  ring : ThreadRing s r.ring
  thrds : s.thrds.Perm r.ring
  curr : s.currThread = r.turn
  ready : ∀ t ∈ s.thrds, t ≠ s.currThread → (s.thread t).state = .ready
  many : 2 ≤ r.ring.length

/-! ## Seats -/

theorem OnDuty.nodup {s : System} {r : Rota Ptr} (h : OnDuty s r) : r.ring.Nodup :=
  h.thrds.nodup_iff.mp h.unreaped.nodup

theorem OnDuty.pos {s : System} {r : Rota Ptr} (h : OnDuty s r) {t : Ptr} (ht : t ∈ r.ring) :
    t ≠ 0 := by
  rintro rfl
  have hmem := h.thrds.mem_iff.mpr ht
  exact h.unreaped.closed.thrds_pos (h.unreaped.thrds_eq ▸ hmem)

/-- The next seat is where `next` leads. -/
theorem advance_next {next : Ptr → Ptr} {r : Rota Ptr} (h : Ring next r.ring) :
    next r.turn = r.advance.turn := by
  obtain ⟨xs, c, ys⟩ := r
  have hlinks := ring_links 0 h
  obtain ⟨-, hc, -⟩ := links_append.mp hlinks
  cases ys with
  | cons y ys => exact hc
  | nil =>
    cases xs with
    | cons x xs => exact hc
    | nil => exact hc

theorem advance_turn_mem (r : Rota Ptr) : r.advance.turn ∈ r.ring := by
  rw [← advance_ring, Rota.ring]
  simp

theorem advance_turn_ne {r : Rota Ptr} (hnodup : r.ring.Nodup) (hmany : 2 ≤ r.ring.length) :
    r.advance.turn ≠ r.turn := by
  obtain ⟨xs, c, ys⟩ := r
  have hcross := (List.nodup_append.mp hnodup).2
  cases ys with
  | cons y ys =>
    rintro heq
    have heq : y = c := heq
    exact (List.nodup_cons.mp hcross.1).1 (heq ▸ List.mem_cons_self)
  | nil =>
    cases xs with
    | cons x xs => exact hcross.2 x List.mem_cons_self c List.mem_cons_self
    | nil => simp [Rota.ring] at hmany

/-- Only the last seat leads back to the first one. -/
theorem last_seat {next : Ptr → Ptr} {ts : List Ptr} {b : Ptr} (h : Ring next ts)
    (hnodup : ts.Nodup) (hb : b ∈ ts) (hhead : next b = ts.headD 0) : ∃ xs, ts = xs ++ [b] := by
  rcases List.eq_nil_or_concat' ts with rfl | ⟨xs, c, rfl⟩
  · cases hb
  · rcases List.mem_append.mp hb with hb | hb
    · have hmem := next_mem_tail (ring_links 0 h) hb
      rw [hhead] at hmem
      cases xs with
      | nil => cases hb
      | cons x xs => exact absurd hmem (List.nodup_cons.mp hnodup).1
    · exact ⟨xs, by rw [List.mem_singleton.mp hb]⟩

/-! ## Steps -/

theorem ThreadRing.congr {s s' : System} {ts : List Ptr} (h : ThreadRing s ts)
    (hhead : s'.threadListHead = s.threadListHead)
    (hnext : ∀ t ∈ ts, (s'.thread t).next = (s.thread t).next) : ThreadRing s' ts := by
  refine ⟨hhead.trans h.head, ?_⟩
  have hring := h.ring
  cases ts with
  | nil => trivial
  | cons t ts => exact links_congr hnext hring

theorem OnDuty.of_quiet {s s' : System} {r : Rota Ptr} (h : OnDuty s r) (hu : Unreaped s')
    (hq : Quiet s s') (hstate : ∀ t ∈ s.thrds, t ≠ s.currThread →
      (s.thread t).state = .ready → (s'.thread t).state = .ready) : OnDuty s' r := by
  have hmem : ∀ t, t ∈ s'.thrds ↔ t ∈ s.thrds := by
    intro t
    rw [← hu.thrds_eq, hq.thrds, h.unreaped.thrds_eq]
  have hperm : s'.thrds.Perm s.thrds :=
    (List.perm_ext_iff_of_nodup hu.nodup h.unreaped.nodup).mpr hmem
  refine ⟨hu, h.ring.congr hq.head fun t ht => ?_, hperm.trans h.thrds,
    hq.currThread.trans h.curr, fun t ht hne => ?_, h.many⟩
  · exact hq.next t (h.unreaped.thrds_eq ▸ h.thrds.mem_iff.mpr ht)
  · rw [hq.currThread] at hne
    have ht := (hmem t).mp ht
    exact hstate t ht hne (h.ready t ht hne)

theorem onDuty_spawn {s s' : System} {r : Rota Ptr} (h : OnDuty s r) (hu : Unreaped s')
    {p t pageDir : Ptr} {reused : List Ptr} {mt : Ptr → ThreadT} {mp : Ptr → ProcessT}
    (hfree : Unallocated s reused) (hp : Fresh s p) (ht : Fresh s t)
    (hspawn : sysSpawn (overwrite s reused mt mp) p t pageDir = some s') : OnDuty s' (r.join t) := by
  have hc := h.unreaped.closed
  have hno : ∀ x : Ptr, x ∉ s.freedThrds ∧ x ∉ s.freedProcs := by
    simp [h.unreaped.freedThrds, h.unreaped.freedProcs]
  obtain ⟨-, -, hut, tail, htail, hs⟩ := spawn_step hc hfree hp ht (fun x _ => hno x) hspawn
  obtain ⟨hsame, -⟩ := overwrite_known mt mp hfree fun x _ => hno x
  have hthread : ∀ x ∈ knownThrds s,
      s'.thread x = { s.thread x with next := if x = tail then t else (s.thread x).next } := by
    intro x hx
    rw [hs.thread_known ⟨hut.thrd, hut.proc⟩ hx, hsame x hx]
  have hknown : ∀ x ∈ r.ring, x ∈ knownThrds s := fun x hx =>
    h.unreaped.thrds_eq ▸ h.thrds.mem_iff.mpr hx
  have hheadEq : s'.threadListHead = s.threadListHead := hs.head
  have hcurrEq : s'.currThread = s.currThread := hs.currThread
  have hthrds : s'.thrds = t :: s.thrds := hs.thrds
  -- the tail that the loop finds is the last seat
  have htailNext : (s.thread tail).next = r.ring.headD 0 := by
    have hnext := hs.tail_next
    rw [hsame tail htail] at hnext
    exact hnext.trans h.ring.head
  have htailRing : tail ∈ r.ring :=
    h.thrds.mem_iff.mp (h.unreaped.thrds_eq ▸ htail)
  obtain ⟨xs, hxs⟩ := last_seat h.ring.ring h.nodup htailRing htailNext
  have hlast : (s'.thread tail).next = t := by rw [hthread tail htail, if_pos rfl]
  have hnew : (s'.thread t).next = (xs ++ [tail]).headD t := by
    have hhead := h.ring.head
    rw [hs.thread, if_pos rfl]
    refine Eq.trans hhead ?_
    rw [hxs]
    cases xs <;> rfl
  have hbefore : ∀ x ∈ xs, (s'.thread x).next = (s.thread x).next := by
    intro x hx
    have hne : x ≠ tail := by
      have hnodup := h.nodup
      rw [hxs] at hnodup
      rintro rfl
      exact (List.nodup_append.mp hnodup).2.2 x hx x (by simp) rfl
    rw [hthread x (hknown x (hxs ▸ List.mem_append_left _ hx)), if_neg hne]
  have hring := h.ring.ring
  rw [hxs] at hring
  refine ⟨hu, ⟨?_, ?_⟩, ?_, hcurrEq.trans h.curr, fun x hx hne => ?_, ?_⟩
  · rw [hheadEq, h.ring.head, join_ring, hxs]
    cases xs <;> rfl
  · rw [join_ring, hxs]
    exact ring_add hring hlast hnew hbefore
  · rw [hthrds, join_ring]
    exact (h.thrds.cons t).trans (List.perm_append_singleton t r.ring).symm
  · rw [hthrds] at hx
    rcases List.mem_cons.mp hx with rfl | hx
    · rw [hs.thread, if_pos rfl]
    · rw [hthread x (h.unreaped.thrds_eq ▸ hx)]
      exact h.ready x hx (hcurrEq ▸ hne)
  · rw [join_ring, List.length_append]
    exact Nat.le_add_right_of_le h.many

theorem schedulerNextLoop_ready {s : System} {start t : Ptr} {n : Nat} (hn : 0 < n) (h0 : t ≠ 0)
    (hready : (s.thread t).state = .ready) : schedulerNextLoop s start n t = some t := by
  obtain ⟨n, rfl⟩ : ∃ k, n = k + 1 := ⟨n - 1, by omega⟩
  rw [schedulerNextLoop, if_neg h0, if_neg fun hc => hc.1 hready]

/-- The first thread that `scheduler_next` looks at is ready. -/
theorem OnDuty.next_eq {s : System} {r : Rota Ptr} (h : OnDuty s r) :
    schedulerNext (saveEsp s) = some r.advance.turn := by
  have hnext : (s.thread s.currThread).next = r.advance.turn := by
    rw [h.curr]
    exact advance_next h.ring.ring
  have hne : r.advance.turn ≠ s.currThread := by
    rw [h.curr]
    exact advance_turn_ne h.nodup h.many
  have hmem := advance_turn_mem r
  have hready := h.ready _ (h.thrds.mem_iff.mpr hmem) hne
  have hcurr : (saveEsp s).currThread ≠ 0 := by
    have hturn : s.currThread ∈ r.ring := by
      rw [h.curr, Rota.ring]
      simp
    exact h.pos hturn
  have hsave := saveEsp_thread s
  have hstate : ((saveEsp s).thread r.advance.turn).state = .ready := by
    rw [hsave]
    exact hready
  have hfirst : ((saveEsp s).thread (saveEsp s).currThread).next = r.advance.turn := by
    rw [hsave]
    exact hnext
  rw [schedulerNext, if_neg hcurr]
  dsimp only
  rw [hfirst]
  exact schedulerNextLoop_ready (by decide) (h.pos hmem) hstate

theorem onDuty_switch {s s' : System} {r : Rota Ptr} (h : OnDuty s r) {next : Ptr}
    (hu : Unreaped s') (hswitch : schedulerSwitch s = some (next, s')) :
    next = r.advance.turn ∧ OnDuty s' r.advance := by
  have hsave := saveEsp_thread s
  obtain ⟨hnext, hcases⟩ := schedulerSwitch_some hswitch
  obtain rfl : r.advance.turn = next := Option.some.inj (h.next_eq.symm.trans hnext)
  have hne : r.advance.turn ≠ s.currThread := by
    rw [h.curr]
    exact advance_turn_ne h.nodup h.many
  obtain ⟨-, rfl⟩ := hcases.resolve_left fun hstay => hne hstay.1
  have hthread := switchTo_thread (saveEsp s) s.currThread r.advance.turn
  have hring := advance_ring r
  refine ⟨rfl, hu, ?_, ?_, rfl, fun t ht htne => ?_, ?_⟩
  · rw [hring]
    refine h.ring.congr rfl fun t _ => ?_
    rw [hthread, hsave]
  · rw [hring]
    exact h.thrds
  · have htne : t ≠ r.advance.turn := htne
    rw [hthread, hsave]
    dsimp only
    rw [if_neg htne]
    split
    case isTrue => rfl
    case isFalse hold => exact h.ready t ht hold
  · rw [hring]
    exact h.many

theorem OnDuty.globals {s : System} {r : Rota Ptr} (h : OnDuty s r) (pending inIrq : Bool) :
    OnDuty { s with schedulePending := pending, inIrq := inIrq } r :=
  h.of_quiet (h.unreaped.globals pending inIrq) (quiet_globals s _ _ _ _) fun _ _ _ hready => hready

/-- **One step.** -/
theorem onDuty_step {s s' : System} {e : Event} {r : Rota Ptr} (h : OnDuty s r)
    (hstep : SysStep s e s') (he : e ≠ .waitStatement .freeThread) :
    ∃ r', RotaStep r e.turn r' ∧ OnDuty s' r' := by
  have hu : Unreaped s' := unreaped_step h.unreaped hstep he
  have hno : ∀ x : Ptr, x ∉ s.freedThrds ∧ x ∉ s.freedProcs := by
    simp [h.unreaped.freedThrds, h.unreaped.freedProcs]
  cases hstep with
  | spawn _ _ hfree hp ht _ _ _ hspawn =>
    exact ⟨_, .join r _, onDuty_spawn h hu hfree hp ht hspawn⟩
  | switch _ _ _ hswitch =>
    have hglobals := h.globals false s.inIrq
    obtain ⟨rfl, hduty⟩ := onDuty_switch hglobals (hu.globals _ _) hswitch
    refine ⟨r.advance, ?_, hduty.globals _ false⟩
    rw [Event.turn, h.curr]
    exact .advance r
  | @spawnFailed reused mt mp _ _ hfree =>
    have hthread := (overwrite_known mt mp hfree fun x _ => hno x).1
    refine ⟨r, .pass r, h.of_quiet hu (quiet_overwrite hfree fun x _ => hno x)
      fun t ht _ hready => ?_⟩
    rwa [hthread t (h.unreaped.thrds_eq ▸ ht)]
  | exit =>
    refine ⟨r, .pass r, h.of_quiet hu (quiet_sysExit s _) fun t _ hne hready => ?_⟩
    rw [sysExit_thread]
    split
    · rfl
    · exact hready
  | wait _ _ hwait =>
    refine ⟨r, .pass r, h.of_quiet hu (quiet_sysWait hwait) fun t _ hne hready => ?_⟩
    rcases sysWait_some hwait with rfl | ⟨w, -, ⟨-, rfl⟩ | ⟨-, rfl⟩⟩
    · exact hready
    · simp only [waitBlock, setState_thread]
      exact (if_neg hne).trans hready
    · exact hready
  | waitEnds =>
    exact ⟨r, .pass r, h.of_quiet hu (quiet_globals s _ _ _ _) fun _ _ _ hready => hready⟩
  | @waitStatement _ w stmt sti hrunning _ _ hstep =>
    refine ⟨r, .pass r, ?_⟩
    cases stmt with
    | remove =>
      obtain ⟨s₁, hremove, rfl⟩ := Option.map_eq_some_iff.mp hstep
      obtain ⟨l, nx, rfl⟩ := uprocessRemove_some h.unreaped.closed hremove
      exact ⟨hu, h.ring.congr rfl fun _ _ => rfl, h.thrds, h.curr, h.ready, h.many⟩
    | freeThread => exact absurd rfl he
    | freeProcess => exact absurd hrunning (h.unreaped.running_ne w sti)
    | store | freeStack | ret =>
      obtain rfl := Option.some.inj hstep
      exact h.of_quiet hu (quiet_globals s _ _ _ _) fun _ _ _ hready => hready
  | waitReturn hrunning _ hstep =>
    obtain rfl := Option.some.inj hstep
    exact ⟨r, .pass r, h.of_quiet hu (quiet_globals s _ _ _ _) fun _ _ _ hready => hready⟩
  | ttyRead =>
    refine ⟨r, .pass r, h.of_quiet hu (quiet_ttyReadLoop s _) fun t _ hne hready => ?_⟩
    rwa [ttyReadLoop_thread s _ t hne]
  | ttyResume =>
    refine ⟨r, .pass r, h.of_quiet hu ((quiet_threadState s _ _).trans (quiet_ttyReadLoop _ _))
      fun t _ hne hready => ?_⟩
    refine (ttyReadLoop_thread (setThread s s.currThread _) _ t hne).trans ?_
    rwa [setThread_thread, if_neg hne]
  | @irq src =>
    refine ⟨r, .pass r, h.of_quiet hu ((quiet_irqHandler s src).trans (quiet_globals _ _ _ _ _))
      fun t _ hne hready => ?_⟩
    rcases irqHandler_state s src t with heq | ⟨hcurr, -⟩
    · exact heq.trans hready
    · exact absurd hcurr hne
  | irqReturn => exact ⟨r, .pass r, h.globals false false⟩

/-! ## Runs -/

theorem onDuty_boot {b : Boot} {s : System} (h : Booted b s) : OnDuty s (kmainRota b) := by
  obtain ⟨_, hidle⟩ := h.idle
  obtain ⟨_, hmain⟩ := h.main
  obtain ⟨_, hinit⟩ := h.initThread
  refine ⟨h.unreaped, ⟨h.head, ?_⟩, ?_, h.currThread, fun t ht hne => ?_, ?_⟩
  · exact ⟨congrArg ThreadT.next hidle, congrArg ThreadT.next hmain, congrArg ThreadT.next hinit,
      trivial⟩
  · rw [h.thrds]
    exact List.reverse_perm [b.idle, b.main, b.initThread]
  · rw [h.thrds] at ht
    rw [h.currThread] at hne
    simp only [List.mem_cons, List.not_mem_nil, or_false] at ht
    rcases ht with rfl | rfl | rfl
    · rw [hinit]
    · exact absurd rfl hne
    · rw [hidle]
  · simp [kmainRota, Rota.ring]

theorem onDuty_run {s s' : System} {es : List Event} (hrun : Run SysStep s es s') :
    ∀ {r : Rota Ptr}, OnDuty s r → .waitStatement .freeThread ∉ es →
      ∃ r', Run RotaStep r (es.map Event.turn) r' ∧ OnDuty s' r' := by
  induction hrun with
  | refl => exact fun {r} h _ => ⟨r, .refl r, h⟩
  | step hstep _ ih =>
    intro r h hes
    obtain ⟨he, hes⟩ := not_or.mp (fun hmem => hes (List.mem_cons.mpr hmem))
    obtain ⟨r₁, hturn, h₁⟩ := onDuty_step h hstep (Ne.symm he)
    obtain ⟨r', hrest, h'⟩ := ih h₁ hes
    exact ⟨r', .step hturn hrest, h'⟩

/-- **Round robin.**  In every run in which no thread has been freed, the
switches are the turns of a rota on which the threads sit in the order of their
creation, whatever their states: a blocked or dead thread has its turns too. -/
theorem round_robin {b : Boot} {s₀ s : System} {es : List Event} (hboot : kmain b = some s₀)
    (hrun : Run SysStep s₀ es s) (hfree : .waitStatement .freeThread ∉ es) :
    ∃ r, Run RotaStep (kmainRota b) (es.map Event.turn) r ∧ ThreadRing s r.ring ∧
      s.thrds.Perm r.ring ∧ s.currThread = r.turn := by
  obtain ⟨r, hturns, h⟩ := onDuty_run hrun (onDuty_boot (kmain_booted hboot)) hfree
  exact ⟨r, hturns, h.ring, h.thrds, h.curr⟩

/-- The switches among some events. -/
def switches (es : List Event) : Nat := advances (es.map Event.turn)

/-- **No thread starves.**  In every run in which no thread has been freed, and
in every part of it with as many switches as there are threads at its end, each
thread that there was at its beginning is switched to. -/
theorem turns_fair {b : Boot} {s₀ s s' : System} {past es : List Event} {t : Ptr}
    (hboot : kmain b = some s₀) (hpast : Run SysStep s₀ past s) (hrun : Run SysStep s es s')
    (hfree : .waitStatement .freeThread ∉ past ++ es) (ht : t ∈ s.thrds)
    (hmany : s'.thrds.length ≤ switches es) : ∃ old, .switch old t ∈ es := by
  obtain ⟨hfree₁, hfree₂⟩ := not_or.mp (mt List.mem_append.mpr hfree)
  obtain ⟨r, -, h⟩ := onDuty_run hpast (onDuty_boot (kmain_booted hboot)) hfree₁
  obtain ⟨r', hturns, h'⟩ := onDuty_run hrun h hfree₂
  rw [h'.thrds.length_eq] at hmany
  obtain ⟨old, hmem⟩ := rota_fair hturns (h.thrds.mem_iff.mp ht) hmany
  obtain ⟨e, he, heq⟩ := List.mem_map.mp hmem
  refine ⟨old, ?_⟩
  cases e with
  | switch old' next =>
    cases heq
    exact he
  | _ => cases heq

/-! ## A process that exits -/

/-- `init` exits and is switched to again. -/
def exitedTurns : List Choice := tick ++ [.exit 7, .irq .other, .switch] ++ tick ++ tick ++ tick

theorem exitedTurns_robin : ∃ s₀ es s r, kmain smallBoot = some s₀ ∧ Run SysStep s₀ es s ∧
    Run RotaStep (kmainRota smallBoot) (es.map Event.turn) r ∧ s.currThread = r.turn ∧
    4 < switches es := by
  obtain ⟨s₀, es, s, hboot, hrun, hP⟩ := playBoot_run exitedTurns
    (fun es _ => decide (Event.waitStatement .freeThread ∉ es) && decide (4 < switches es))
    (by decide +kernel)
  simp only [Bool.and_eq_true, decide_eq_true_eq] at hP
  obtain ⟨r, hturns, -, -, hcurr⟩ := round_robin hboot hrun hP.1
  exact ⟨s₀, es, s, r, hboot, hrun, hturns, hcurr, hP.2⟩

theorem exitedTurns_fair : ∃ s₀ es s old, kmain smallBoot = some s₀ ∧ Run SysStep s₀ es s ∧
    .switch old smallBoot.initThread ∈ es := by
  obtain ⟨s₀, es, s, hboot, hrun, hP⟩ := playBoot_run exitedTurns
    (fun es s => decide (Event.waitStatement .freeThread ∉ es) &&
      decide (s.thrds.length ≤ switches es)) (by decide +kernel)
  simp only [Bool.and_eq_true, decide_eq_true_eq] at hP
  have hmem : smallBoot.initThread ∈ s₀.thrds := by
    rw [(kmain_booted hboot).thrds]
    simp
  obtain ⟨old, hswitch⟩ := turns_fair hboot (.refl s₀) hrun hP.1 hmem hP.2
  exact ⟨s₀, es, s, old, hboot, hrun, hswitch⟩

end FrogKernel.Process
