import FrogKernel.Userspace.Closed

/-!
# The state after boot

`kmain` leaves a ring of three threads (idle, main, init) and one process.
-/

namespace FrogKernel.Process

open FrogKernel.DList

/-- What `kmain` leaves. -/
structure Booted (b : Boot) (s : System) : Prop where
  idle : ∃ base, s.thread b.idle =
    { esp := .kernel, stackBase := base, stackSize := KSTACK_SIZE, state := .ready, process := 0
      next := b.main }
  main : ∃ base, s.thread b.main =
    { esp := .kernel, stackBase := base, stackSize := KSTACK_SIZE, state := .running, process := 0
      next := b.initThread }
  initThread : ∃ base, s.thread b.initThread =
    { esp := .user, stackBase := base, stackSize := KSTACK_SIZE, state := .ready, process := b.init
      next := b.idle }
  init : s.proc b.init =
    { pid := 1, pageDir := b.pageDir, thread := b.initThread, state := .running, parent := 0
      next := 0, exitCode := 0 }
  head : s.threadListHead = b.idle
  idleThread : s.idleThread = b.idle
  currThread : s.currThread = b.main
  currProcess : s.currProcess = 0
  processList : s.processList = b.init
  nextPid : s.nextPid = 2
  pending : s.schedulePending = false
  kernelDir : s.cr3 = s.kernelPdPhys
  kernelStack : s.tssEsp0 = (s.thread s.currThread).stackBase + (s.thread s.currThread).stackSize
  base_le : LARGE_ALLOC_BASE + 2 * KSTACK_SIZE ≤ s.largeAllocBase
  running : s.running = .kernel
  inIrq : s.inIrq = false
  thrds : s.thrds = [b.initThread, b.main, b.idle]
  procs : s.procs = [b.init]
  freedThrds : s.freedThrds = []
  freedProcs : s.freedProcs = []

theorem schedulerAdd_some {s s' : System} {t : Ptr} {P : Ptr → Prop}
    (hadd : schedulerAdd s t = some s') (hpos : s.threadListHead ≠ 0) (hhead : P s.threadListHead)
    (hnext : ∀ x, P x → P (s.thread x).next) :
    ∃ tail, P tail ∧ (s.thread tail).next = s.threadListHead ∧
      s' = setThread (setThread s tail fun r => { r with next := t }) t
        fun r => { r with next := s.threadListHead } := by
  unfold schedulerAdd at hadd
  split at hadd
  case isTrue hnull => exact absurd hnull hpos
  case isFalse =>
    obtain ⟨tail, htail, hs'⟩ := Option.map_eq_some_iff.mp hadd
    obtain ⟨hP, hlast⟩ := ringTail_some hhead hnext htail
    exact ⟨tail, hP, hlast, hs'.symm⟩

theorem bootRecords_thread (b : Boot) (x : Ptr) : (bootRecords b).thread x =
    if x = b.initThread then
      { esp := .user, stackBase := b.largeAllocBase + 2 * PAGE_SIZE + 2 * PAGE_SIZE
        stackSize := KSTACK_SIZE, state := .ready, process := b.init, next := 0 }
    else if x = b.main then
      { esp := .kernel, stackBase := b.largeAllocBase + 2 * PAGE_SIZE, stackSize := KSTACK_SIZE
        state := .ready, process := 0, next := 0 }
    else if x = b.idle then
      { esp := .kernel, stackBase := b.largeAllocBase, stackSize := KSTACK_SIZE, state := .ready
        process := 0, next := 0 }
    else b.thread x := by
  simp only [bootRecords, uprocessCreate, kthreadCreate, processListAdd, setProc, setThread,
    kallocPages, kmallocThread, kmallocProc, Function.update_apply]
  rfl

theorem bootRecords_proc (b : Boot) : (bootRecords b).proc b.init =
    { pid := 1, pageDir := b.pageDir, thread := b.initThread, state := .running, parent := 0
      next := 0, exitCode := 0 } := by
  simp only [bootRecords, uprocessCreate, kthreadCreate, processListAdd, setProc, setThread,
    kallocPages, kmallocThread, kmallocProc, Function.update_idem, Function.update_self]

theorem bootRecords_base (b : Boot) :
    (bootRecords b).largeAllocBase = b.largeAllocBase + 2 * PAGE_SIZE + 2 * PAGE_SIZE + 2 * PAGE_SIZE :=
  rfl

theorem kmain_booted {b : Boot} {s : System} (h : kmain b = some s) : Booted b s := by
  obtain ⟨hidle, hmain, hinit, -⟩ := b.nonzero
  have hd := b.distinct
  simp only [List.nodup_cons, List.mem_cons, List.not_mem_nil, or_false, not_or,
    not_false_eq_true, List.nodup_nil, and_true] at hd
  obtain ⟨⟨him, hii, hip⟩, ⟨hmi, hmp⟩, hip'⟩ := hd
  have hbase := b.base_le
  have hthread := bootRecords_thread b
  unfold kmain at h
  obtain ⟨s1, h1, h⟩ := Option.bind_eq_some_iff.mp h
  obtain ⟨s2, h2, h⟩ := Option.bind_eq_some_iff.mp h
  obtain ⟨s3, h3, rfl⟩ := Option.map_eq_some_iff.mp h
  -- the idle thread alone is a ring
  have h1' : s1 = setThread { bootRecords b with threadListHead := b.idle } b.idle
      fun r => { r with next := b.idle } := by
    have h0 : (bootRecords b).threadListHead = 0 := rfl
    rw [schedulerAdd, if_pos h0] at h1
    exact (Option.some.inj h1).symm
  have hidle1 : (s1.thread b.idle).next = b.idle := by rw [h1', setThread_thread, if_pos rfl]
  have hhead1 : s1.threadListHead = b.idle := by rw [h1']; rfl
  -- the main thread goes behind it
  obtain ⟨_, rfl, -, h2'⟩ := schedulerAdd_some (P := (· = b.idle)) h2 (hhead1 ▸ hidle) hhead1
    (by rintro x rfl; exact hidle1)
  have hidle2 : (s2.thread b.idle).next = b.main := by
    rw [h2', setThread_thread, if_neg him, setThread_thread, if_pos rfl]
  have hmain2 : (s2.thread b.main).next = b.idle := by
    rw [h2', setThread_thread, if_pos rfl]
    exact hhead1
  have hhead2 : s2.threadListHead = b.idle := by rw [h2']; exact hhead1
  have hproc2 : (s2.proc b.init).thread = b.initThread := by
    have heq : s2.proc = (bootRecords b).proc := by rw [h2', h1']; rfl
    rw [heq, bootRecords_proc]
  -- and the first process behind that
  rw [hproc2] at h3
  obtain ⟨tail, htail, hlast, h3'⟩ := schedulerAdd_some (P := fun x => x = b.idle ∨ x = b.main) h3
    (hhead2 ▸ hidle) (Or.inl hhead2) (by
      rintro x (rfl | rfl)
      · exact Or.inr hidle2
      · exact Or.inl hmain2)
  have htail : tail = b.main := by
    refine htail.resolve_left ?_
    rintro rfl
    exact him ((hidle2.symm.trans hlast).trans hhead2).symm
  subst htail
  have hs3 : ∀ x, s3.thread x =
      if x = b.initThread then { (bootRecords b).thread x with next := b.idle }
      else if x = b.main then { (bootRecords b).thread x with next := b.initThread }
      else if x = b.idle then { (bootRecords b).thread x with next := b.main }
      else (bootRecords b).thread x := by
    intro x
    rw [h3', hhead2, h2', hhead1, h1']
    simp only [setThread_thread]
    by_cases hxi : x = b.initThread
    · subst hxi
      simp [Ne.symm hii, Ne.symm hmi]
    · by_cases hxm : x = b.main
      · subst hxm
        simp [hmi, Ne.symm him]
      · by_cases hxd : x = b.idle
        · subst hxd
          simp [hii, him]
        · simp [hxi, hxm, hxd]
  have hproc3 : s3.proc = (bootRecords b).proc := by rw [h3', h2', h1']; rfl
  have hglobals : s3.threadListHead = b.idle ∧ s3.idleThread = b.idle ∧ s3.currProcess = 0 ∧
      s3.processList = b.init ∧ s3.nextPid = 2 ∧ s3.schedulePending = false ∧
      s3.largeAllocBase = (bootRecords b).largeAllocBase ∧ s3.inIrq = false ∧
      s3.thrds = [b.initThread, b.main, b.idle] ∧ s3.procs = [b.init] ∧ s3.freedThrds = [] ∧
      s3.freedProcs = [] ∧ s3.cr3 = s3.kernelPdPhys := by
    rw [h3', h2', h1']
    exact ⟨rfl, rfl, rfl, rfl, rfl, rfl, rfl, rfl, rfl, rfl, rfl, rfl, rfl⟩
  obtain ⟨hh, hi, hcp, hl, hn, hpe, hb, hq, ht, hp, hft, hfp, hdir⟩ := hglobals
  have hmain3 : s3.thread b.main =
      { esp := .kernel, stackBase := b.largeAllocBase + 2 * PAGE_SIZE, stackSize := KSTACK_SIZE
        state := .ready, process := 0, next := b.initThread } := by
    rw [hs3, if_neg hmi, if_pos rfl, hthread, if_neg hmi, if_pos rfl]
  refine
    { idle := ⟨b.largeAllocBase, ?_⟩
      main := ⟨b.largeAllocBase + 2 * PAGE_SIZE, ?_⟩
      initThread := ⟨b.largeAllocBase + 2 * PAGE_SIZE + 2 * PAGE_SIZE, ?_⟩
      init := by rw [← bootRecords_proc, ← hproc3]; rfl
      head := hh, idleThread := hi, currThread := rfl, currProcess := hcp, processList := hl
      nextPid := hn, pending := hpe, kernelDir := hdir, kernelStack := rfl, base_le := ?_
      running := ?_, inIrq := hq, thrds := ht, procs := hp, freedThrds := hft, freedProcs := hfp }
  · dsimp only
    rw [setThread_thread, if_neg him]
    dsimp only
    rw [hs3, if_neg hii, if_neg him, if_pos rfl, hthread, if_neg hii, if_neg him, if_pos rfl]
  · dsimp only
    rw [setThread_thread, if_pos rfl]
    dsimp only
    rw [hmain3]
  · dsimp only
    rw [setThread_thread, if_neg (Ne.symm hmi)]
    dsimp only
    rw [hs3, if_pos rfl, hthread, if_pos rfl]
  · change _ ≤ s3.largeAllocBase
    rw [hb, bootRecords_base]
    simp only [KSTACK_SIZE, PAGE_SIZE, LARGE_ALLOC_BASE] at hbase ⊢
    omega
  · change ((setThread { s3 with currThread := b.main } b.main _).thread b.main).esp = _
    rw [setThread_thread, if_pos rfl]
    dsimp only
    rw [hmain3]

theorem Booted.known {b : Boot} {s : System} (h : Booted b s) :
    knownThrds s = [b.initThread, b.main, b.idle] ∧ knownProcs s = [b.init] := by
  rw [knownThrds, knownProcs, h.thrds, h.procs, h.freedThrds, h.freedProcs]
  exact ⟨rfl, rfl⟩

/-- No thread is in `sys_wait`. -/
theorem Booted.ctx {b : Boot} {s : System} (h : Booted b s) :
    ctx s b.idle = .kernel ∧ ctx s b.main = .kernel ∧ ctx s b.initThread = .user := by
  have hd := b.distinct
  simp only [List.nodup_cons, List.mem_cons, List.not_mem_nil, or_false, not_or,
    not_false_eq_true, List.nodup_nil, and_true] at hd
  obtain ⟨⟨him, -⟩, ⟨hmi, -⟩, -⟩ := hd
  obtain ⟨_, hidle⟩ := h.idle
  obtain ⟨_, hinit⟩ := h.initThread
  refine ⟨?_, ?_, ?_⟩
  · rw [ctx_of_ne (by rw [h.currThread]; exact him), hidle]
  · rw [← h.currThread, ctx_curr, h.running]
  · rw [ctx_of_ne (by rw [h.currThread]; exact Ne.symm hmi), hinit]

theorem Booted.closed {b : Boot} {s : System} (h : Booted b s) : Closed s := by
  obtain ⟨hT, hP⟩ := h.known
  obtain ⟨hidle0, hmain0, hinit0, hproc0⟩ := b.nonzero
  obtain ⟨cidle, cmain, cinit⟩ := h.ctx
  obtain ⟨_, hidle⟩ := h.idle
  obtain ⟨_, hmain⟩ := h.main
  obtain ⟨_, hinit⟩ := h.initThread
  constructor
  · simp [hT, hidle0.symm, hmain0.symm, hinit0.symm]
  · simp [hP, hproc0.symm]
  · simp [hT, h.head]
  · simp [hT, h.idleThread]
  · simp [hT, h.currThread]
  · simp [hT, hidle, hmain, hinit]
  · simp [hT, hP, NullOr, hidle, hmain, hinit]
  · rw [h.currProcess, h.currThread, hmain]
  · simp [hP, NullOr, h.processList]
  · simp [hP, NullOr, h.init]
  · simp [hP, NullOr, h.init]
  · simp [hT, hP, h.init]
  · simp [hT, cidle, cmain, cinit, Cont.call?]

end FrogKernel.Process
