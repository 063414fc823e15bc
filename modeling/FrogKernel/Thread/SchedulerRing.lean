import Mathlib.Data.List.Perm.Subperm
import FrogKernel.Lib.Links
import FrogKernel.Thread.Kthread

/-!
# The ring of the scheduler (`thread/kthread.c`)

`scheduler_add` puts a thread behind the last one of a ring, and `scheduler_next`
goes around it once.

Main result: `scheduler_ring`.
-/

namespace FrogKernel.Process

open FrogKernel.DList FrogKernel.Links

/-- The threads of the scheduler in the order of their `next` pointers. -/
structure ThreadRing (s : System) (ts : List Ptr) : Prop where
  head : s.threadListHead = ts.headD 0
  ring : Ring (fun t => (s.thread t).next) ts

def runnable (s : System) (t : Ptr) : Bool :=
  (s.thread t).state = .ready ∨ (s.thread t).state = .running

/-- Once around the ring, from the thread after `c` to `c`. -/
def around (ts : List Ptr) (c : Ptr) : List Ptr := ts.rotate (ts.idxOf c + 1)

/-! ## `scheduler_add` -/

theorem ringTail_last {s : System} {ts : List Ptr} {b : Ptr} (h : ThreadRing s (ts ++ [b]))
    (hnodup : (ts ++ [b]).Nodup) (h0 : ∀ t ∈ ts ++ [b], t ≠ 0) (hlen : ts.length < 2 ^ 32) :
    ringTail s = some b := by
  have hlinks := ring_links 0 h.ring
  rw [← h.head] at hlinks
  obtain ⟨-, hlast, -⟩ := links_append.mp hlinks
  have hb : (s.thread b).next = s.threadListHead := hlast
  have hmid : ∀ t ∈ ts, (s.thread t).next ≠ s.threadListHead := by
    intro t ht heq
    have hmem : (s.thread t).next ∈ (ts ++ [b]).tail := next_mem_tail hlinks ht
    rw [heq, h.head] at hmem
    cases ts with
    | nil => cases ht
    | cons t₀ ts => exact (List.nodup_cons.mp hnodup).1 hmem
  have hfind : (ts ++ [b]).find? (fun t => !(t != 0 && (s.thread t).next != s.threadListHead)) =
      some b := by
    rw [List.find?_append, List.find?_eq_none.mpr, Option.none_or, List.find?_cons_of_pos]
    · simp [hb]
    · intro t ht
      simp [h0 t (List.mem_append_left _ ht), hmid t ht]
  have hwalk := walk_find (k := 2 ^ 32) hlinks hfind (by
    rw [List.length_append, List.length_singleton]
    omega)
  have hhead : (ts ++ [b]).headD s.threadListHead = s.threadListHead := by
    rw [h.head]
    cases ts <;> rfl
  rw [hhead] at hwalk
  rw [ringTail, hwalk]
  simp [h0 b (by simp)]

theorem schedulerAdd_ring {s : System} {ts : List Ptr} {t : Ptr} (h : ThreadRing s ts)
    (hnodup : (ts ++ [t]).Nodup) (h0 : ∀ x ∈ ts ++ [t], x ≠ 0) (hlen : ts.length < 2 ^ 32) :
    ∃ s', schedulerAdd s t = some s' ∧ ThreadRing s' (ts ++ [t]) := by
  rcases List.eq_nil_or_concat ts with rfl | ⟨ts, b, rfl⟩
  · have hhead : s.threadListHead = 0 := h.head
    refine ⟨_, by rw [schedulerAdd, if_pos hhead], rfl, ?_, trivial⟩
    simp [setThread]
  · rw [List.concat_eq_append] at *
    have hne : s.threadListHead ≠ 0 := by
      rw [h.head]
      cases ts <;> exact h0 _ (by simp)
    have htail := ringTail_last h (List.nodup_append.mp hnodup).1
      (fun x hx => h0 x (List.mem_append_left _ hx)) (by
        rw [List.length_append] at hlen
        omega)
    have hbt : b ≠ t := by
      rintro rfl
      exact (List.nodup_append.mp hnodup).2.2 b (by simp) b (by simp) rfl
    have hts : ∀ x ∈ ts, x ≠ t ∧ x ≠ b := by
      intro x hx
      simp only [List.nodup_append, List.mem_append, List.mem_singleton] at hnodup
      exact ⟨hnodup.2.2 x (Or.inl hx) t rfl, hnodup.1.2.2 x hx b rfl⟩
    refine ⟨_, by rw [schedulerAdd, if_neg hne, htail, Option.map_some], ?_, ?_⟩
    · rw [List.append_assoc]
      refine h.head.trans ?_
      cases ts <;> rfl
    · refine ring_add h.ring ?_ ?_ fun x hx => ?_
      · simp [setThread, Function.update_apply, hbt]
      · have hhead := h.head
        simp only [setThread, Function.update_self]
        rw [hhead]
        cases ts <;> rfl
      · simp [setThread, Function.update_apply, (hts x hx).1, (hts x hx).2]

/-- Adding threads to a ring. -/
theorem schedulerAdds_ring {ts added : List Ptr} {s : System} (h : ThreadRing s ts)
    (hnodup : (ts ++ added).Nodup) (h0 : ∀ x ∈ ts ++ added, x ≠ 0)
    (hlen : (ts ++ added).length < 2 ^ 32) :
    ∃ s', added.foldlM schedulerAdd s = some s' ∧ ThreadRing s' (ts ++ added) := by
  induction added generalizing ts s with
  | nil => exact ⟨s, rfl, by rwa [List.append_nil]⟩
  | cons t added ih =>
    rw [List.append_cons] at hnodup h0 hlen ⊢
    obtain ⟨s₁, hadd, hring⟩ := schedulerAdd_ring h (List.nodup_append.mp hnodup).1
      (fun x hx => h0 x (List.mem_append_left _ hx)) (by
        simp only [List.length_append] at hlen
        omega)
    obtain ⟨s', hrest, hring'⟩ := ih hring hnodup h0 hlen
    exact ⟨s', by rw [List.foldlM_cons, hadd]; exact hrest, hring'⟩

/-! ## `scheduler_next` -/

/-- The loop over the threads that are left, up to the start. -/
theorem schedulerNextLoop_linked {s : System} {start : Ptr} {ts : List Ptr} {n : Nat}
    (h : Linked (fun t => (s.thread t).next) ts start) (hne : ts ≠ []) (h0 : ∀ t ∈ ts, t ≠ 0)
    (hstart : start ∉ ts.tail) (hn : ts.length ≤ n) :
    schedulerNextLoop s start n (ts.headD 0) = some ((ts.find? (runnable s)).getD s.idleThread) := by
  induction ts generalizing n with
  | nil => exact absurd rfl hne
  | cons t ts ih =>
    obtain ⟨n, rfl⟩ : ∃ k, n = k + 1 := ⟨n - 1, by simp at hn; omega⟩
    have hnext : (s.thread t).next = ts.headD start := h.1
    rw [List.headD_cons, schedulerNextLoop, if_neg (h0 t List.mem_cons_self)]
    by_cases hrun : runnable s t = true
    · rw [List.find?_cons_of_pos hrun, if_neg]
      · rfl
      · have hstates : (s.thread t).state = .ready ∨ (s.thread t).state = .running :=
          of_decide_eq_true hrun
        exact fun hc => hstates.elim hc.1 hc.2
    · have hstates : ¬ ((s.thread t).state = .ready ∨ (s.thread t).state = .running) :=
        fun hc => hrun (decide_eq_true hc)
      rw [List.find?_cons_of_neg hrun, if_pos (not_or.mp hstates)]
      dsimp only
      rw [hnext]
      cases ts with
      | nil => rw [List.headD_nil, if_pos rfl]; rfl
      | cons t' ts =>
        rw [List.headD_cons, if_neg fun heq : t' = start => hstart (heq ▸ List.mem_cons_self)]
        exact ih h.2 (by simp) (fun x hx => h0 x (List.mem_cons_of_mem t hx))
          (fun hmem => hstart (List.mem_of_mem_tail hmem)) (by simpa using hn)

theorem around_eq {ts : List Ptr} {c : Ptr} (hc : c ∈ ts) (hnodup : ts.Nodup) :
    ∃ xs, around ts c = xs ++ [c] := by
  obtain ⟨xs, ys, rfl⟩ := List.append_of_mem hc
  have hnot : c ∉ xs := fun hmem => (List.nodup_append.mp hnodup).2.2 c hmem c (by simp) rfl
  have hidx : (xs ++ c :: ys).idxOf c + 1 = (xs ++ [c]).length := by
    rw [List.idxOf_append_of_notMem hnot, List.idxOf_cons_self, List.length_append,
      List.length_singleton, Nat.add_zero]
  refine ⟨ys ++ xs, ?_⟩
  rw [around, hidx, List.append_cons, List.rotate_append_length_eq, List.append_assoc]

theorem schedulerNext_ring {s : System} {ts : List Ptr} (h : ThreadRing s ts) (hnodup : ts.Nodup)
    (h0 : ∀ t ∈ ts, t ≠ 0) (hlen : ts.length ≤ 2 ^ 32) (hcurr : s.currThread ∈ ts) :
    schedulerNext s =
      some (((around ts s.currThread).find? (runnable s)).getD s.idleThread) := by
  have hperm : (around ts s.currThread).Perm ts := List.rotate_perm ts _
  have hring : Ring (fun t => (s.thread t).next) (around ts s.currThread) := ring_rotate h.ring _
  have hnodup' := hperm.nodup_iff.mpr hnodup
  have hlen' := hperm.length_eq
  obtain ⟨xs, hxs⟩ := around_eq hcurr hnodup
  have hlast : (s.thread s.currThread).next = (around ts s.currThread).headD 0 := by
    have hlinks := ring_links 0 hring
    rw [hxs] at hlinks ⊢
    exact (links_append.mp hlinks).2.1
  have hne : around ts s.currThread ≠ [] := by
    rw [hxs]
    simp
  have hloop := schedulerNextLoop_linked (n := 2 ^ 32) (ring_links 0 hring) hne
    (fun t ht => h0 t (hperm.mem_iff.mp ht)) ?_ (by omega)
  · rw [schedulerNext, if_neg (h0 _ hcurr)]
    dsimp only
    rw [hlast]
    exact hloop
  · generalize around ts s.currThread = ys at hnodup' hne
    cases ys with
    | nil => exact absurd rfl hne
    | cons y ys => exact (List.nodup_cons.mp hnodup').1

/-- Distinct pointers are fewer than there are addresses. -/
theorem pointers_length {ts : List Ptr} (hnodup : ts.Nodup) (hptr : ∀ t ∈ ts, t ≠ 0 ∧ t < 2 ^ 32) :
    ts.length < 2 ^ 32 := by
  have hsub : ts ⊆ List.range' 1 (2 ^ 32 - 1) := by
    intro t ht
    obtain ⟨h0, hlt⟩ := hptr t ht
    exact List.mem_range'_1.mpr ⟨Nat.pos_of_ne_zero h0, hlt⟩
  have hle := (List.subperm_of_subset hnodup hsub).length_le
  rw [List.length_range'] at hle
  omega

/-- The globals before `kmain`. -/
def initialData : System where
  thread := fun _ =>
    { esp := .kernel, stackBase := 0, stackSize := 0, state := .ready, process := 0, next := 0 }
  proc := fun _ =>
    { pid := 0, pageDir := 0, thread := 0, state := .running, parent := 0, next := 0, exitCode := 0 }
  threadListHead := 0
  idleThread := 0
  currThread := 0
  currProcess := 0
  processList := 0
  nextPid := 1
  schedulePending := false
  largeAllocBase := LARGE_ALLOC_BASE
  tssEsp0 := 0
  cr3 := 0
  kernelPdPhys := 0
  tty := { ring := fun _ => 0, ringRead := 0, ringWrite := 0, ringCount := 0, lineLen := 0 }
  running := .kernel
  inIrq := false
  thrds := []
  procs := []
  freedThrds := []
  freedProcs := []

/-- **The ring.**  Adding distinct threads makes a ring of them in this order, and on
every such ring, whatever the states of its threads, `scheduler_next` returns the first
runnable one after the current thread, or the idle thread. -/
theorem scheduler_ring {s : System} {ts : List Ptr} (hempty : s.threadListHead = 0)
    (hnodup : ts.Nodup) (hptr : ∀ t ∈ ts, t ≠ 0 ∧ t < 2 ^ 32) :
    (∃ s', ts.foldlM schedulerAdd s = some s' ∧ ThreadRing s' ts) ∧
      ∀ u, ThreadRing u ts → u.currThread ∈ ts → schedulerNext u =
        some (((around ts u.currThread).find? (runnable u)).getD u.idleThread) := by
  have hlen := pointers_length hnodup hptr
  have h0 : ∀ t ∈ ts, t ≠ 0 := fun t ht => (hptr t ht).1
  have hstart : ThreadRing s [] := ⟨hempty, trivial⟩
  refine ⟨schedulerAdds_ring hstart hnodup h0 hlen, fun u hring hcurr => ?_⟩
  exact schedulerNext_ring hring hnodup h0 (Nat.le_of_lt hlen) hcurr

theorem threeThreads_ring :
    ∃ s', [0x30, 0x10, 0x20].foldlM schedulerAdd initialData = some s' ∧
      ThreadRing s' [0x30, 0x10, 0x20] :=
  have hempty : initialData.threadListHead = 0 := rfl
  (scheduler_ring hempty (by decide) (by decide)).1

end FrogKernel.Process
