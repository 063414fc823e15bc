import FrogKernel.Lib.Runs
import FrogKernel.Thread.SchedulerRing

/-!
# The list of processes (`userspace/uprocess.c`)

`uprocess_create` puts a process in front, `uprocess_find` and `uprocess_remove` look
for the first one with a pid.  The pids are counted up, so there is at most one.

Main result: `processList_run`.
-/

namespace FrogKernel.Process

open FrogKernel.DList FrogKernel.Links FrogKernel.Runs

/-- The processes on `process_list`, in order. -/
structure ProcList (s : System) (ps : List Ptr) : Prop where
  head : s.processList = ps.headD 0
  linked : Linked (fun p => (s.proc p).next) ps 0
  nonzero : ∀ p ∈ ps, p ≠ 0

inductive ListEvent where
  | create
  | remove (pid : Nat)
  | other

/-- Creations and removals.  Between them the rest of the kernel leaves the listed
processes allocated, and their pids and links as they are. -/
inductive ListStep : System → ListEvent → System → Prop
  | create {s : System} {p t : Ptr} {pageDir : Nat} : Fresh s p →
      ListStep s .create (uprocessCreate s p t pageDir)
  | remove {s s' : System} {pid : Nat} : uprocessRemove s pid = some s' → ListStep s (.remove pid) s'
  | other {s s' : System} : s'.processList = s.processList → s'.nextPid = s.nextPid →
      (∀ ps, ProcList s ps → ∀ p ∈ ps, (s'.proc p).pid = (s.proc p).pid ∧
        (s'.proc p).next = (s.proc p).next ∧ p ∈ s'.procs) → ListStep s .other s'

def creations : List ListEvent → Nat
  | [] => 0
  | .create :: es => creations es + 1
  | _ :: es => creations es

/-! ## Looking for a pid -/

section Lookup

variable {s : System} {ps xs ys : List Ptr} {p prev : Ptr} {pid n : Nat}

theorem uprocessFind_list (h : ProcList s ps) (hlen : ps.length < 2 ^ 32) (pid : Nat) :
    uprocessFind s pid = some ((ps.find? fun p => (s.proc p).pid = pid).getD 0) := by
  have hcont : ∀ p ∈ ps, (!(p != 0 && (s.proc p).pid != pid)) = decide ((s.proc p).pid = pid) := by
    intro p hp
    simp [bne, beq_eq_decide, h.nonzero p hp]
  have hfind : ps.find? (fun p => !(p != 0 && (s.proc p).pid != pid)) =
      ps.find? fun p => (s.proc p).pid = pid := by
    clear h hlen
    induction ps with
    | nil => rfl
    | cons p ps ih =>
      simp only [List.find?_cons, hcont p List.mem_cons_self]
      rw [ih fun q hq => hcont q (List.mem_cons_of_mem p hq)]
  rw [uprocessFind, h.head, walk_end h.linked rfl hlen, hfind]

/-- `*proc = (*proc)->next` -/
def unlink (s : System) (prev p : Ptr) : System :=
  if prev = 0 then { s with processList := (s.proc p).next }
  else setProc s prev fun r => { r with next := (s.proc p).next }

theorem uprocessRemoveLoop_none (h : Linked (fun p => (s.proc p).next) ps 0)
    (h0 : ∀ p ∈ ps, p ≠ 0) (hpids : ∀ p ∈ ps, (s.proc p).pid ≠ pid) (hlen : ps.length < n) :
    uprocessRemoveLoop s pid n prev (ps.headD 0) = some s := by
  induction ps generalizing n prev with
  | nil =>
    obtain ⟨n, rfl⟩ : ∃ k, n = k + 1 := ⟨n - 1, by simp at hlen; omega⟩
    rw [List.headD_nil, uprocessRemoveLoop, if_pos rfl]
  | cons p ps ih =>
    obtain ⟨n, rfl⟩ : ∃ k, n = k + 1 := ⟨n - 1, by simp at hlen; omega⟩
    have hnext : (s.proc p).next = ps.headD 0 := h.1
    rw [List.headD_cons, uprocessRemoveLoop, if_neg (h0 p List.mem_cons_self),
      if_neg (hpids p List.mem_cons_self), hnext]
    exact ih h.2 (fun q hq => h0 q (List.mem_cons_of_mem p hq))
      (fun q hq => hpids q (List.mem_cons_of_mem p hq)) (by simpa using hlen)

theorem uprocessRemoveLoop_found (h : Linked (fun p => (s.proc p).next) (xs ++ p :: ys) 0)
    (h0 : ∀ q ∈ xs ++ p :: ys, q ≠ 0) (hpids : ∀ q ∈ xs, (s.proc q).pid ≠ pid)
    (hpid : (s.proc p).pid = pid) (hlen : xs.length < n) :
    uprocessRemoveLoop s pid n prev ((xs ++ p :: ys).headD 0) =
      some (unlink s (xs.getLastD prev) p) := by
  induction xs generalizing n prev with
  | nil =>
    obtain ⟨n, rfl⟩ : ∃ k, n = k + 1 := ⟨n - 1, by simp at hlen; omega⟩
    rw [List.nil_append, List.headD_cons, uprocessRemoveLoop, if_neg (h0 p (by simp)), if_pos hpid,
      List.getLastD_nil, unlink]
    split <;> rfl
  | cons x xs ih =>
    obtain ⟨n, rfl⟩ : ∃ k, n = k + 1 := ⟨n - 1, by simp at hlen; omega⟩
    have hnext : (s.proc x).next = (xs ++ p :: ys).headD 0 := h.1
    rw [List.cons_append, List.headD_cons, uprocessRemoveLoop, if_neg (h0 x (by simp)),
      if_neg (hpids x List.mem_cons_self), hnext, List.getLastD_cons]
    exact ih h.2 (fun q hq => h0 q (List.mem_cons_of_mem x hq))
      (fun q hq => hpids q (List.mem_cons_of_mem x hq)) (by simpa using hlen)

theorem ProcList.unlink (h : ProcList s (xs ++ p :: ys)) (hnodup : (xs ++ p :: ys).Nodup) :
    ProcList (unlink s (xs.getLastD 0) p) (xs ++ ys) := by
  have h0 : ∀ q ∈ xs ++ ys, q ≠ 0 := fun q hq => h.nonzero q (by
    rcases List.mem_append.mp hq with hq | hq <;> simp [hq])
  rcases List.eq_nil_or_concat xs with rfl | ⟨xs, b, rfl⟩
  · rw [List.getLastD_nil, Process.unlink, if_pos rfl]
    exact ⟨h.linked.1, h.linked.2, h0⟩
  · simp only [List.concat_eq_append, List.append_assoc, List.singleton_append] at *
    have hb : b ≠ 0 := h0 b (by simp)
    rw [List.getLastD_concat, Process.unlink, if_neg hb]
    refine ⟨?_, ?_, h0⟩
    · refine h.head.trans ?_
      cases xs <;> rfl
    · refine links_cut h.linked ?_ fun x hx => ?_
      · simp [setProc]
      · have hne : x ≠ b := by
          rintro rfl
          rw [List.nodup_append, List.nodup_cons] at hnodup
          rcases List.mem_append.mp hx with hx | hx
          · exact hnodup.2.2 x hx x List.mem_cons_self rfl
          · exact hnodup.2.1.1 (List.mem_cons_of_mem p hx)
        simp [setProc, hne]

/-- Of a record a removal changes the link at most. -/
theorem unlink_proc (s : System) (prev p q : Ptr) : ∃ next,
    (Process.unlink s prev p).proc q = { s.proc q with next } := by
  unfold Process.unlink
  split
  · exact ⟨(s.proc q).next, rfl⟩
  · by_cases hq : q = prev
    · exact ⟨(s.proc p).next, by simp [setProc, hq]⟩
    · exact ⟨(s.proc q).next, by simp [setProc, hq]⟩

end Lookup

/-! ## Runs -/

/-- The list after `n` creations: the pids were counted up so far. -/
structure ListInv (n : Nat) (s : System) (ps : List Ptr) : Prop where
  list : ProcList s ps
  nodup : ps.Nodup
  allocated : ∀ p ∈ ps, p ∈ s.procs
  nextPid : s.nextPid = n + 1
  pids : ∀ p ∈ ps, 0 < (s.proc p).pid ∧ (s.proc p).pid ≤ n
  distinct : (ps.map fun p => (s.proc p).pid).Nodup

theorem ListInv.length {n : Nat} {s : System} {ps : List Ptr} (h : ListInv n s ps) :
    ps.length ≤ n := by
  have hsub : ps.map (fun p => (s.proc p).pid) ⊆ List.range' 1 n := by
    intro pid hpid
    obtain ⟨p, hp, rfl⟩ := List.mem_map.mp hpid
    have hbounds := h.pids p hp
    rw [List.mem_range'_1]
    omega
  have hle := (List.subperm_of_subset h.distinct hsub).length_le
  rwa [List.length_map, List.length_range'] at hle

theorem ListInv.create {n : Nat} {s : System} {ps : List Ptr} {p t : Ptr} {pageDir : Nat}
    (h : ListInv n s ps) (hfresh : Fresh s p) (hn : n + 2 < 2 ^ 32) :
    ListInv (n + 1) (uprocessCreate s p t pageDir) (p :: ps) := by
  obtain ⟨hp0, -, hprocs⟩ := hfresh
  have hnot : p ∉ ps := fun hmem => hprocs (h.allocated p hmem)
  have hother : ∀ q ∈ ps, (uprocessCreate s p t pageDir).proc q = s.proc q := by
    intro q hq
    have hne : q ≠ p := fun heq => hnot (heq ▸ hq)
    simp [uprocessCreate, processListAdd, setProc, setThread, kallocPages, kmallocThread,
      kmallocProc, hne]
  have hself : (uprocessCreate s p t pageDir).proc p =
      { pid := s.nextPid, pageDir, thread := t, state := .running, parent := 0,
        next := s.processList, exitCode := 0 } := by
    simp [uprocessCreate, processListAdd, setProc, setThread, kallocPages, kmallocThread,
      kmallocProc]
  have hpids : ps.map (fun q => ((uprocessCreate s p t pageDir).proc q).pid) =
      ps.map fun q => (s.proc q).pid :=
    List.map_congr_left fun q hq => by rw [hother q hq]
  have hlinked : Linked (fun q => ((uprocessCreate s p t pageDir).proc q).next) ps 0 :=
    links_congr (fun q hq => by rw [hother q hq]) h.list.linked
  refine ⟨⟨rfl, ⟨?_, hlinked⟩, ?_⟩, List.nodup_cons.mpr ⟨hnot, h.nodup⟩, ?_, ?_, ?_, ?_⟩
  · dsimp only
    rw [hself, h.list.head]
  · exact List.forall_mem_cons.mpr ⟨hp0, h.list.nonzero⟩
  · exact List.forall_mem_cons.mpr
      ⟨List.mem_cons_self, fun q hq => List.mem_cons_of_mem p (h.allocated q hq)⟩
  · show (s.nextPid + 1) % 2 ^ 32 = n + 1 + 1
    rw [h.nextPid, Nat.mod_eq_of_lt hn]
  · refine List.forall_mem_cons.mpr ⟨?_, fun q hq => ?_⟩
    · rw [hself, h.nextPid]
      dsimp only
      omega
    · rw [hother q hq]
      have hbounds := h.pids q hq
      omega
  · rw [List.map_cons, hpids, hself, List.nodup_cons]
    refine ⟨fun hmem => ?_, h.distinct⟩
    obtain ⟨q, hq, heq⟩ := List.mem_map.mp hmem
    have hbounds := h.pids q hq
    have hnext := h.nextPid
    dsimp only at heq
    omega

/-- **`uprocess_remove`** takes out the process with the pid. -/
theorem ListInv.remove {n : Nat} {s : System} {ps : List Ptr} (h : ListInv n s ps)
    (hn : n < 2 ^ 32) (pid : Nat) :
    ∃ s', uprocessRemove s pid = some s' ∧
      ListInv n s' (ps.filter fun p => (s.proc p).pid ≠ pid) ∧
      (∀ q, ∃ next, s'.proc q = { s.proc q with next }) ∧
      ((∀ p ∈ ps, (s.proc p).pid ≠ pid) → s' = s) := by
  have hlen := h.length
  by_cases hex : ∀ p ∈ ps, (s.proc p).pid ≠ pid
  · have hfilter : ps.filter (fun p => (s.proc p).pid ≠ pid) = ps :=
      List.filter_eq_self.mpr fun p hp => decide_eq_true (hex p hp)
    rw [hfilter]
    refine ⟨s, ?_, h, fun q => ⟨(s.proc q).next, rfl⟩, fun _ => rfl⟩
    rw [uprocessRemove, h.list.head]
    exact uprocessRemoveLoop_none h.list.linked h.list.nonzero hex (by omega)
  · simp only [not_forall, not_not, exists_prop] at hex
    obtain ⟨p, hp, hpid⟩ := hex
    obtain ⟨xs, ys, rfl⟩ := List.append_of_mem hp
    -- no other process has the pid
    have hdistinct := h.distinct
    rw [List.map_append, List.map_cons, List.nodup_append, List.nodup_cons] at hdistinct
    have hxs : ∀ q ∈ xs, (s.proc q).pid ≠ pid := fun q hq heq =>
      hdistinct.2.2 _ (List.mem_map_of_mem hq) _ List.mem_cons_self (heq.trans hpid.symm)
    have hys : ∀ q ∈ ys, (s.proc q).pid ≠ pid := fun q hq heq =>
      hdistinct.2.1.1 ((heq.trans hpid.symm) ▸ List.mem_map_of_mem hq)
    have hfilter : (xs ++ p :: ys).filter (fun p => (s.proc p).pid ≠ pid) = xs ++ ys := by
      rw [List.filter_append, List.filter_cons_of_neg (by simpa using hpid),
        List.filter_eq_self.mpr fun q hq => decide_eq_true (hxs q hq),
        List.filter_eq_self.mpr fun q hq => decide_eq_true (hys q hq)]
    have hsub : (xs ++ ys).Sublist (xs ++ p :: ys) :=
      List.Sublist.append_left (List.sublist_cons_self p ys) xs
    have hpids : ∀ q, ((Process.unlink s (xs.getLastD 0) p).proc q).pid = (s.proc q).pid := by
      intro q
      obtain ⟨next, hq⟩ := unlink_proc s (xs.getLastD 0) p q
      rw [hq]
    rw [hfilter]
    refine ⟨_, ?_, ⟨h.list.unlink h.nodup, h.nodup.sublist hsub, ?_, ?_, ?_, ?_⟩,
      unlink_proc s _ p, fun hall => absurd hpid (hall p hp)⟩
    · rw [uprocessRemove, h.list.head]
      refine uprocessRemoveLoop_found h.list.linked h.list.nonzero hxs hpid ?_
      rw [List.length_append] at hlen
      omega
    · intro q hq
      have hprocs : (Process.unlink s (xs.getLastD 0) p).procs = s.procs := by
        unfold Process.unlink
        split <;> rfl
      rw [hprocs]
      exact h.allocated q (hsub.subset hq)
    · have hnext : (Process.unlink s (xs.getLastD 0) p).nextPid = s.nextPid := by
        unfold Process.unlink
        split <;> rfl
      rw [hnext, h.nextPid]
    · intro q hq
      rw [hpids]
      exact h.pids q (hsub.subset hq)
    · simp only [hpids]
      exact h.distinct.sublist (hsub.map _)

theorem listInv_step {n : Nat} {s s' : System} {e : ListEvent} (h : ∃ ps, ListInv n s ps)
    (hn : n + creations [e] + 1 < 2 ^ 32) (hstep : ListStep s e s') :
    ∃ ps, ListInv (n + creations [e]) s' ps := by
  obtain ⟨ps, h⟩ := h
  cases hstep with
  | create hfresh => exact ⟨_, h.create hfresh hn⟩
  | @remove _ pid hremove =>
    obtain ⟨t, ht, hinv, -⟩ := h.remove (Nat.lt_of_succ_lt hn) pid
    obtain rfl := Option.some.inj (hremove.symm.trans ht)
    exact ⟨_, hinv⟩
  | other hlist hnext hsame =>
    have hsame := hsame ps h.list
    have hpids : ps.map (fun p => (s'.proc p).pid) = ps.map fun p => (s.proc p).pid :=
      List.map_congr_left fun p hp => (hsame p hp).1
    refine ⟨ps, ⟨hlist.trans h.list.head, ?_, h.list.nonzero⟩, h.nodup, fun p hp => (hsame p hp).2.2,
      hnext.trans h.nextPid, fun p hp => (hsame p hp).1 ▸ h.pids p hp, hpids ▸ h.distinct⟩
    exact links_congr (fun p hp => (hsame p hp).2.1) h.list.linked

theorem creations_cons (e : ListEvent) (es : List ListEvent) :
    creations (e :: es) = creations [e] + creations es := by
  cases e with
  | create => exact Nat.add_comm _ _
  | remove pid => exact (Nat.zero_add _).symm
  | other => exact (Nat.zero_add _).symm

theorem listInv_run {n : Nat} {s s' : System} {es : List ListEvent} (hrun : Run ListStep s es s')
    (h : ∃ ps, ListInv n s ps) (hn : n + creations es + 1 < 2 ^ 32) :
    ∃ ps, ListInv (n + creations es) s' ps := by
  induction hrun generalizing n with
  | refl => exact h
  | @step _ _ _ e es hstep _ ih =>
    rw [creations_cons, ← Nat.add_assoc] at hn ⊢
    exact ih (listInv_step h (by omega) hstep) hn

/-- **The process list.**  After fewer than 2^32 - 1 creations the pids on the list are
distinct and not 0; `uprocess_find` finds the process with a pid, and
`uprocess_remove` takes it out and leaves the others in their order. -/
theorem processList_run {s t : System} {es : List ListEvent} (hlist : s.processList = 0)
    (hpid : s.nextPid = 1) (hrun : Run ListStep s es t) (hcount : creations es < 2 ^ 32 - 1) :
    ∃ ps, ProcList t ps ∧ (ps.map fun p => (t.proc p).pid).Nodup ∧ (∀ p ∈ ps, (t.proc p).pid ≠ 0) ∧
      ∀ pid, uprocessFind t pid = some ((ps.find? fun p => (t.proc p).pid = pid).getD 0) ∧
        ∃ t', uprocessRemove t pid = some t' ∧
          ProcList t' (ps.filter fun p => (t.proc p).pid ≠ pid) ∧
          (∀ p, ∃ next, t'.proc p = { t.proc p with next }) ∧
          ((∀ p ∈ ps, (t.proc p).pid ≠ pid) → t' = t) := by
  have hstart : ListInv 0 s [] :=
    ⟨⟨hlist, trivial, by simp⟩, List.nodup_nil, by simp, hpid, by simp, List.nodup_nil⟩
  obtain ⟨ps, h⟩ := listInv_run hrun ⟨[], hstart⟩ (by omega)
  have hlen := h.length
  refine ⟨ps, h.list, h.distinct, fun p hp => Nat.pos_iff_ne_zero.mp (h.pids p hp).1, fun pid => ?_⟩
  obtain ⟨t', hremove, hinv, hproc, hsame⟩ := h.remove (by omega) pid
  exact ⟨uprocessFind_list h.list (by omega) pid, t', hremove, hinv.list, hproc, hsame⟩

/-- Two processes are created, the first one is removed. -/
theorem twoProcesses_list : ∃ t, Run ListStep initialData [.create, .create, .remove 1] t ∧
    ∃ ps, ProcList t ps ∧ (ps.map fun p => (t.proc p).pid).Nodup := by
  have h₁ : ListStep initialData .create (uprocessCreate initialData 0x50 0x60 0x1000) :=
    .create (by decide)
  have h₂ : ListStep (uprocessCreate initialData 0x50 0x60 0x1000) .create
      (uprocessCreate (uprocessCreate initialData 0x50 0x60 0x1000) 0x70 0x80 0x2000) :=
    .create (by decide)
  obtain ⟨t, hremove⟩ : ∃ t, uprocessRemove
      (uprocessCreate (uprocessCreate initialData 0x50 0x60 0x1000) 0x70 0x80 0x2000) 1 = some t :=
    ⟨_, rfl⟩
  have hrun := Run.step h₁ (.step h₂ (.single (.remove hremove)))
  obtain ⟨ps, hlist, hpids, -⟩ := processList_run rfl rfl hrun (by decide)
  exact ⟨t, hrun, ps, hlist, hpids⟩

end FrogKernel.Process
