import FrogKernel.Thread.Frames
import FrogKernel.Userspace.Closed

/-!
# Context switches

The threads with the memory their stacks lie in, the registers, and the stack
pointer `esp` of each `thread_t`.  Between interrupts the code that runs may do
what it likes with the registers and with memory outside the kernel stacks of
other threads.

Main result: `switches_transparent`.  A thread goes on with the registers it had
when it was interrupted, and starts with those its frame was built for.
-/

namespace FrogKernel.Process

open FrogKernel.Bytes FrogKernel.Stacks FrogKernel.DList FrogKernel.Runs

structure Hardware where
  sys : System
  mem : Mem
  cpu : Cpu
  /-- `t->esp` -/
  esp : Ptr → Word

def stackTop (s : System) (t : Ptr) : Nat := (s.thread t).stackBase + (s.thread t).stackSize

/-- The words of a new frame, from the top of the stack of `t` down, and
`t->esp = sp`. -/
def writeFrame (s : Hardware) (t : Ptr) (words : List Word) : Hardware :=
  let (mem, sp) := pushAll (s.mem, BitVec.ofNat 32 (stackTop s.sys t)) words
  { s with mem, esp := Function.update s.esp t sp }

/-- `kthread_create`, with the frame of the new thread. -/
def kthreadFrame (s : Hardware) (t : Ptr) (entry : Word) (stackSize : Nat) : Hardware :=
  writeFrame { s with sys := kthreadCreate s.sys t stackSize } t (kthreadWords entry)

/-- `uprocess_create`, with the frame of the new thread. -/
def uprocessFrame (s : Hardware) (p t pageDir : Ptr) (entry initialUserEsp : Word) : Hardware :=
  writeFrame { s with sys := uprocessCreate s.sys p t pageDir } t
    (uprocessWords entry initialUserEsp)

/-- The end of `kmain`, from `curr_thread = main_thread` on. -/
def startThread (s : Hardware) (t : Ptr) : Hardware :=
  let sys := setThread { s.sys with currThread := t } t fun r => { r with state := .running }
  { s with
    sys := { sys with tssEsp0 := stackTop sys t }
    cpu := restore s.mem { s.cpu with esp := s.esp t } }

/-- `.restore` with the stack `sp` -/
def resumeFrom (s : Hardware) (sp : Word) : Hardware :=
  { s with cpu := restore s.mem { s.cpu with esp := sp } }

/-- `irq_common` after the call of `irq_handler`, on the stack `sp`. -/
def irqExit (s : Hardware) (sp : Word) : Option Hardware :=
  if s.sys.schedulePending = false then some (resumeFrom s sp)
  else
    let s := { s with sys := { s.sys with schedulePending := false } }
    if s.sys.currThread = 0 then some (resumeFrom s sp)
    else
      let s := { s with esp := Function.update s.esp s.sys.currThread sp }
      (schedulerSwitch s.sys).bind fun (next, sys) =>
        -- `next->state` of `NULL` is a page fault
        if next = 0 then none else some (resumeFrom { s with sys } (s.esp next))

def InStack (s : System) (t : Ptr) (a : Nat) : Prop :=
  (s.thread t).stackBase ≤ a ∧ a < stackTop s t

/-- What the running code leaves alone: the stacks of other threads, and of the
kernel's data the stack pointers, the links and who is running. -/
structure Undisturbed (s s' : Hardware) : Prop where
  thrds : s'.sys.thrds = s.sys.thrds
  stackBase : ∀ t ∈ s.sys.thrds, (s'.sys.thread t).stackBase = (s.sys.thread t).stackBase
  stackSize : ∀ t ∈ s.sys.thrds, (s'.sys.thread t).stackSize = (s.sys.thread t).stackSize
  next : ∀ t ∈ s.sys.thrds, (s'.sys.thread t).next = (s.sys.thread t).next
  head : s'.sys.threadListHead = s.sys.threadListHead
  idle : s'.sys.idleThread = s.sys.idleThread
  currThread : s'.sys.currThread = s.sys.currThread
  tssEsp0 : s'.sys.tssEsp0 = s.sys.tssEsp0
  largeAllocBase : s.sys.largeAllocBase ≤ s'.sys.largeAllocBase
  esp : s'.esp = s.esp
  mem : ∀ t ∈ s.sys.thrds, t ≠ s.sys.currThread → ∀ a, InStack s.sys t a → s'.mem a = s.mem a

/-- The frame of an interrupt has room: on the kernel stack of the thread, or
before the first thread runs outside all of their stacks. -/
structure FrameFits (s : Hardware) : Prop where
  user : privilege s.cpu.cs ≠ 0 →
    s.sys.currThread ≠ 0 ∧ 76 ≤ (s.sys.thread s.sys.currThread).stackSize
  kernel : privilege s.cpu.cs = 0 → s.sys.currThread ≠ 0 →
    (s.sys.thread s.sys.currThread).stackBase + 68 ≤ s.cpu.esp.toNat ∧
      s.cpu.esp.toNat ≤ stackTop s.sys s.sys.currThread
  boot : s.sys.currThread = 0 → 68 ≤ s.cpu.esp.toNat ∧
    ∀ t ∈ s.sys.thrds, ∀ a, s.cpu.esp.toNat - 68 ≤ a → a < s.cpu.esp.toNat → ¬ InStack s.sys t a

/-- What happens, with the registers before and after. -/
inductive SwitchEvent where
  | kthread (t : Ptr) (entry top : Word)
  | uprocess (t : Ptr) (entry initialUserEsp : Word)
  | other
  | start (t : Ptr) (c' : Cpu)
  | irq (old : Ptr) (c : Cpu) (next : Ptr) (c' : Cpu)

inductive SwitchStep : Hardware → SwitchEvent → Hardware → Prop
  | kthread {s : Hardware} {t : Ptr} {entry : Word} {stackSize : Nat} :
      Fresh s.sys t → 68 ≤ stackSize →
      (kthreadCreate s.sys t stackSize).largeAllocBase < 2 ^ 32 →
      SwitchStep s (.kthread t entry (BitVec.ofNat 32 (s.sys.largeAllocBase + stackSize)))
        (kthreadFrame s t entry stackSize)
  | uprocess {s : Hardware} {p t pageDir : Ptr} {entry initialUserEsp : Word} :
      Fresh s.sys p → Fresh s.sys t → p ≠ t →
      (uprocessCreate s.sys p t pageDir).largeAllocBase < 2 ^ 32 →
      SwitchStep s (.uprocess t entry initialUserEsp)
        (uprocessFrame s p t pageDir entry initialUserEsp)
  | schedulerAdd {s : Hardware} {sys : System} {t : Ptr} :
      t ∈ s.sys.thrds → schedulerAdd s.sys t = some sys → SwitchStep s .other { s with sys }
  | idle {s : Hardware} {t : Ptr} :
      t ∈ s.sys.thrds → SwitchStep s .other { s with sys := { s.sys with idleThread := t } }
  | run {s s' : Hardware} : Undisturbed s s' → SwitchStep s .other s'
  | start {s : Hardware} {t : Ptr} :
      s.sys.currThread = 0 → t ∈ s.sys.thrds → privilege s.cpu.cs = 0 →
      SwitchStep s (.start t (startThread s t).cpu) (startThread s t)
  | irq {s h s' : Hardware} {vec sp : Word} {mem : Mem} :
      FrameFits s → irqEntry s.mem s.cpu (BitVec.ofNat 32 s.sys.tssEsp0) vec = (mem, sp) →
      -- the handler runs below the frame
      Undisturbed { s with mem } h →
      (∀ a, sp.toNat ≤ a → a < sp.toNat + frameSize s.cpu → h.mem a = mem a) →
      privilege h.cpu.cs = 0 → irqExit h sp = some s' →
      SwitchStep s (.irq s.sys.currThread s.cpu s'.sys.currThread s'.cpu) s'

/-- The registers a thread has to go on with: those of its last interrupt, or of
its creation. -/
def contextAfter (ctx : Ptr → Option Cpu) : SwitchEvent → Ptr → Option Cpu
  | .kthread t entry top => Function.update ctx t (some (kthreadCpu entry top))
  | .uprocess t entry initialUserEsp =>
    Function.update ctx t (some (uprocessCpu entry initialUserEsp))
  | .irq old c _ _ => Function.update ctx old (some c)
  | .other | .start _ _ => ctx

def contexts (es : List SwitchEvent) : Ptr → Option Cpu := es.foldl contextAfter fun _ => none

/-- A thread is given the registers it has to go on with. -/
def Transparent (ctx : Ptr → Option Cpu) : SwitchEvent → Prop
  | .start t c' => ∃ c, ctx t = some c ∧ Resumed c c'
  | .irq _ _ next c' => ∃ c, ctx next = some c ∧ Resumed c c'
  | _ => True

/-- `kmain` before the first thread. -/
structure NoThreads (s : Hardware) : Prop where
  thrds : s.sys.thrds = []
  currThread : s.sys.currThread = 0
  head : s.sys.threadListHead = 0
  idle : s.sys.idleThread = 0

/-! ## The invariant -/

/-- The stacks are disjoint pieces of what `kalloc_pages` gave out. -/
structure Layout (s : System) : Prop where
  pos : 0 ∉ s.thrds
  apart : ∀ t ∈ s.thrds, ∀ t' ∈ s.thrds, t ≠ t' →
    stackTop s t ≤ (s.thread t').stackBase ∨ stackTop s t' ≤ (s.thread t).stackBase
  below : ∀ t ∈ s.thrds, stackTop s t ≤ s.largeAllocBase
  low : ∀ t ∈ s.thrds, stackTop s t < 2 ^ 32

/-- The scheduler only sees threads that were created. -/
structure Links (s : System) : Prop where
  next : ∀ t ∈ s.thrds, (s.thread t).next = 0 ∨ (s.thread t).next ∈ s.thrds
  head : s.threadListHead = 0 ∨ s.threadListHead ∈ s.thrds
  idle : s.idleThread = 0 ∨ s.idleThread ∈ s.thrds

/-- A frame for `c` on the stack of `t`. -/
structure Saved (s : Hardware) (t : Ptr) (c : Cpu) : Prop where
  frame : FrameAt s.mem (s.esp t) c
  lo : (s.sys.thread t).stackBase ≤ (s.esp t).toNat
  hi : (s.esp t).toNat + frameSize c ≤ stackTop s.sys t

structure SwitchInv (ctx : Ptr → Option Cpu) (s : Hardware) : Prop where
  layout : Layout s.sys
  links : Links s.sys
  curr : s.sys.currThread ≠ 0 →
    s.sys.currThread ∈ s.sys.thrds ∧ s.sys.tssEsp0 = stackTop s.sys s.sys.currThread
  saved : ∀ t ∈ s.sys.thrds, t ≠ s.sys.currThread → ∃ c, ctx t = some c ∧ Saved s t c

theorem Saved.congr {s s' : Hardware} {t : Ptr} {c : Cpu} (h : Saved s t c)
    (hlow : stackTop s.sys t < 2 ^ 32) (hesp : s'.esp t = s.esp t)
    (hbase : (s'.sys.thread t).stackBase = (s.sys.thread t).stackBase)
    (hsize : (s'.sys.thread t).stackSize = (s.sys.thread t).stackSize)
    (hmem : ∀ a, InStack s.sys t a → s'.mem a = s.mem a) : Saved s' t c := by
  have hlo := h.lo
  have hhi := h.hi
  constructor
  · rw [hesp]
    exact h.frame.congr (by omega) fun a h1 h2 => hmem a ⟨by omega, by omega⟩
  · rwa [hesp, hbase]
  · rw [hesp, stackTop, hbase, hsize]
    exact hhi

/-! ## Steps of the running code -/

/-- The stacks of two states are the same ones. -/
structure SameStacks (s s' : System) : Prop where
  thrds : s'.thrds = s.thrds
  stackBase : ∀ t ∈ s.thrds, (s'.thread t).stackBase = (s.thread t).stackBase
  stackSize : ∀ t ∈ s.thrds, (s'.thread t).stackSize = (s.thread t).stackSize
  largeAllocBase : s.largeAllocBase ≤ s'.largeAllocBase

theorem SameStacks.stackTop {s s' : System} (h : SameStacks s s') {t : Ptr} (ht : t ∈ s.thrds) :
    stackTop s' t = stackTop s t := by
  rw [Process.stackTop, h.stackBase t ht, h.stackSize t ht, Process.stackTop]

theorem Layout.of_sameStacks {s s' : System} (hl : Layout s) (h : SameStacks s s') : Layout s' := by
  constructor
  · rw [h.thrds]
    exact hl.pos
  · intro t ht t' ht' hne
    rw [h.thrds] at ht ht'
    rw [h.stackTop ht, h.stackTop ht', h.stackBase t ht, h.stackBase t' ht']
    exact hl.apart t ht t' ht' hne
  · intro t ht
    rw [h.thrds] at ht
    rw [h.stackTop ht]
    exact (hl.below t ht).trans h.largeAllocBase
  · intro t ht
    rw [h.thrds] at ht
    rw [h.stackTop ht]
    exact hl.low t ht

theorem Undisturbed.sameStacks {s s' : Hardware} (h : Undisturbed s s') :
    SameStacks s.sys s'.sys :=
  ⟨h.thrds, h.stackBase, h.stackSize, h.largeAllocBase⟩

/-- Records whose links are those of `s`, or new ones to created threads. -/
theorem Links.congr {s s' : System} (hl : Links s) (hthrds : s'.thrds = s.thrds)
    (hnext : ∀ t ∈ s.thrds, (s'.thread t).next = (s.thread t).next ∨ (s'.thread t).next ∈ s.thrds)
    (hhead : s'.threadListHead = s.threadListHead ∨ s'.threadListHead ∈ s.thrds)
    (hidle : s'.idleThread = s.idleThread ∨ s'.idleThread ∈ s.thrds) : Links s' := by
  constructor
  · intro t ht
    rw [hthrds] at ht ⊢
    rcases hnext t ht with h | h
    · rw [h]
      exact hl.next t ht
    · exact Or.inr h
  · rw [hthrds]
    rcases hhead with h | h
    · rw [h]
      exact hl.head
    · exact Or.inr h
  · rw [hthrds]
    rcases hidle with h | h
    · rw [h]
      exact hl.idle
    · exact Or.inr h

theorem SwitchInv.undisturbed {ctx : Ptr → Option Cpu} {s s' : Hardware} (hinv : SwitchInv ctx s)
    (h : Undisturbed s s') : SwitchInv ctx s' := by
  have hstacks := h.sameStacks
  refine ⟨hinv.layout.of_sameStacks hstacks, hinv.links.congr h.thrds
    (fun t ht => Or.inl (h.next t ht)) (Or.inl h.head) (Or.inl h.idle), ?_, ?_⟩
  · intro hpos
    rw [h.currThread] at hpos
    obtain ⟨hmem, htss⟩ := hinv.curr hpos
    rw [h.currThread, h.thrds, h.tssEsp0, hstacks.stackTop hmem]
    exact ⟨hmem, htss⟩
  · intro t ht hne
    rw [h.thrds] at ht
    rw [h.currThread] at hne
    obtain ⟨c, hc, hsaved⟩ := hinv.saved t ht hne
    exact ⟨c, hc, hsaved.congr (hinv.layout.low t ht) (by rw [h.esp]) (h.stackBase t ht)
      (h.stackSize t ht) (h.mem t ht hne)⟩

/-- A field that an update keeps. -/
theorem setThread_keeps {β : Type} (g : ThreadT → β) {f : ThreadT → ThreadT}
    (hf : ∀ r, g (f r) = g r) (s : System) (t x : Ptr) :
    g ((setThread s t f).thread x) = g (s.thread x) := by
  rw [setThread_thread]
  split
  case isTrue h => rw [hf, h]
  case isFalse => rfl

theorem schedulerAdd_links {s s' : System} {t : Ptr} (hl : Links s) (ht : t ∈ s.thrds)
    (hadd : schedulerAdd s t = some s') :
    Links s' ∧ SameStacks s s' ∧ s'.currThread = s.currThread ∧ s'.tssEsp0 = s.tssEsp0 := by
  unfold schedulerAdd at hadd
  split at hadd
  case isTrue =>
    obtain rfl := Option.some.inj hadd
    refine ⟨hl.congr rfl ?_ (Or.inr ht) (Or.inl rfl), ⟨rfl, ?_, ?_, Nat.le_refl _⟩, rfl, rfl⟩
    · intro x _
      rw [setThread_thread]
      split
      · exact Or.inr ht
      · exact Or.inl rfl
    · exact fun x _ => setThread_keeps ThreadT.stackBase (f := fun r => { r with next := t })
        (fun _ => rfl) _ t x
    · exact fun x _ => setThread_keeps ThreadT.stackSize (f := fun r => { r with next := t })
        (fun _ => rfl) _ t x
  case isFalse hhead =>
    obtain ⟨tail, -, rfl⟩ := Option.map_eq_some_iff.mp hadd
    have hhead' : s.threadListHead ∈ s.thrds := hl.head.resolve_left hhead
    have hkeep : ∀ {β : Type} (g : ThreadT → β), (∀ r y, g { r with next := y } = g r) →
        ∀ (s : System) (t y x : Ptr),
          g ((setThread s t fun r => { r with next := y }).thread x) = g (s.thread x) :=
      fun g hg s t y x => setThread_keeps g (fun r => hg r y) s t x
    refine ⟨hl.congr rfl ?_ (Or.inl rfl) (Or.inl rfl), ⟨rfl, ?_, ?_, Nat.le_refl _⟩, rfl, rfl⟩
    · intro x _
      rw [setThread_thread]
      split
      · exact Or.inr hhead'
      · rw [setThread_thread]
        split
        · exact Or.inr ht
        · exact Or.inl rfl
    · exact fun x _ => (hkeep ThreadT.stackBase (fun _ _ => rfl) _ t s.threadListHead x).trans
        (hkeep ThreadT.stackBase (fun _ _ => rfl) s tail t x)
    · exact fun x _ => (hkeep ThreadT.stackSize (fun _ _ => rfl) _ t s.threadListHead x).trans
        (hkeep ThreadT.stackSize (fun _ _ => rfl) s tail t x)

/-! ## The scheduler -/

/-- A switch goes to a created thread and changes no stack and no link. -/
structure SwitchedTo (s s' : System) (next : Ptr) : Prop extends SameStacks s s' where
  known : next ∈ s.thrds
  links : ∀ t ∈ s.thrds, (s'.thread t).next = (s.thread t).next
  head : s'.threadListHead = s.threadListHead
  idle : s'.idleThread = s.idleThread
  currThread : s'.currThread = next
  tssEsp0 : next ≠ s.currThread → s'.tssEsp0 = stackTop s next
  same : next = s.currThread → s'.tssEsp0 = s.tssEsp0

theorem schedulerNextLoop_known {s : System} (hl : Links s) {start : Ptr} :
    ∀ {n : Nat} {t r : Ptr}, t = 0 ∨ t ∈ s.thrds → schedulerNextLoop s start n t = some r →
      r = 0 ∨ r ∈ s.thrds
  | 0, _, _, _, hloop => by simp [schedulerNextLoop] at hloop
  | n + 1, t, r, ht, hloop => by
    unfold schedulerNextLoop at hloop
    split at hloop
    · simp at hloop
    case isFalse hpos =>
      have ht' := ht.resolve_left hpos
      split at hloop
      · dsimp only at hloop
        split at hloop
        · obtain rfl := Option.some.inj hloop
          exact hl.idle
        · exact schedulerNextLoop_known hl (hl.next t ht') hloop
      · obtain rfl := Option.some.inj hloop
        exact ht

theorem schedulerSwitch_to {s s' : System} (hl : Links s) (hcurr : s.currThread ∈ s.thrds)
    {next : Ptr} (hpos : next ≠ 0) (hswitch : schedulerSwitch s = some (next, s')) :
    SwitchedTo s s' next := by
  obtain ⟨hnext, hcases⟩ := schedulerSwitch_some hswitch
  have hsave : ∀ {β : Type} (g : ThreadT → β),
      (∀ r : ThreadT, g { r with esp := s.running } = g r) → ∀ x, g ((saveEsp s).thread x) = g (s.thread x) :=
    fun g hg x => setThread_keeps g hg s s.currThread x
  have hlinks : Links (saveEsp s) :=
    hl.congr rfl (fun t _ => Or.inl (hsave ThreadT.next (fun _ => rfl) t)) (Or.inl rfl) (Or.inl rfl)
  have hknown : next ∈ s.thrds := by
    unfold schedulerNext at hnext
    split at hnext
    · obtain rfl := Option.some.inj hnext
      exact hl.idle.resolve_left hpos
    · have hstart := hlinks.next s.currThread hcurr
      exact (schedulerNextLoop_known hlinks hstart hnext).resolve_left hpos
  rcases hcases with ⟨rfl, rfl⟩ | ⟨hne, rfl⟩
  · exact {
      thrds := rfl
      stackBase := fun t _ => hsave ThreadT.stackBase (fun _ => rfl) t
      stackSize := fun t _ => hsave ThreadT.stackSize (fun _ => rfl) t
      largeAllocBase := Nat.le_refl _
      known := hknown
      links := fun t _ => hsave ThreadT.next (fun _ => rfl) t
      head := rfl
      idle := rfl
      currThread := rfl
      tssEsp0 := fun h => absurd rfl h
      same := fun _ => rfl }
  · have hstates : ∀ {β : Type} (g : ThreadT → β), (∀ r st, g { r with state := st } = g r) →
        (∀ r : ThreadT, g { r with esp := s.running } = g r) →
        ∀ x, g ((switchTo (saveEsp s) s.currThread next).thread x) = g (s.thread x) := by
      intro β g hg hesp x
      exact (setThread_keeps g (fun r => hg r .running) _ next x).trans
        ((setThread_keeps g (fun r => hg r .ready) _ s.currThread x).trans (hsave g hesp x))
    exact {
      thrds := rfl
      stackBase := fun t _ => hstates ThreadT.stackBase (fun _ _ => rfl) (fun _ => rfl) t
      stackSize := fun t _ => hstates ThreadT.stackSize (fun _ _ => rfl) (fun _ => rfl) t
      largeAllocBase := Nat.le_refl _
      known := hknown
      links := fun t _ => hstates ThreadT.next (fun _ _ => rfl) (fun _ => rfl) t
      head := rfl
      idle := rfl
      currThread := rfl
      tssEsp0 := fun _ => by
        rw [stackTop, ← hstates ThreadT.stackBase (fun _ _ => rfl) (fun _ => rfl),
          ← hstates ThreadT.stackSize (fun _ _ => rfl) (fun _ => rfl)]
        rfl
      same := fun h => absurd h hne }

/-! ## Creating threads -/

/-- `t` is a new record with a stack of its own, of the given size. -/
structure NewRecord (s s' : System) (t : Ptr) (size : Nat) : Prop where
  pos : t ≠ 0
  new : t ∉ s.thrds
  thrds : s'.thrds = t :: s.thrds
  old : ∀ x, x ≠ t → s'.thread x = s.thread x
  stackBase : (s'.thread t).stackBase = s.largeAllocBase
  stackSize : (s'.thread t).stackSize = size
  next : (s'.thread t).next = 0
  top : s.largeAllocBase + size ≤ s'.largeAllocBase
  low : s'.largeAllocBase < 2 ^ 32
  head : s'.threadListHead = s.threadListHead
  idle : s'.idleThread = s.idleThread
  currThread : s'.currThread = s.currThread
  tssEsp0 : s'.tssEsp0 = s.tssEsp0

theorem kthreadCreate_new {s : System} {t : Ptr} {stackSize : Nat} (hfresh : Fresh s t)
    (hlow : (kthreadCreate s t stackSize).largeAllocBase < 2 ^ 32) :
    NewRecord s (kthreadCreate s t stackSize) t stackSize := by
  have hthread : ∀ x, (kthreadCreate s t stackSize).thread x =
      if x = t then
        { esp := .kernel, stackBase := s.largeAllocBase, stackSize, state := .ready, process := 0
          next := 0 }
      else s.thread x := fun x => Function.update_apply ..
  have hbase : (kthreadCreate s t stackSize).largeAllocBase =
      s.largeAllocBase + (stackSize + PAGE_SIZE - 1) / PAGE_SIZE * PAGE_SIZE := rfl
  refine ⟨hfresh.1, hfresh.2.1, rfl, fun x hx => (hthread x).trans (if_neg hx), ?_, ?_, ?_, ?_,
    hlow, rfl, rfl, rfl, rfl⟩
  · rw [hthread, if_pos rfl]
  · rw [hthread, if_pos rfl]
  · rw [hthread, if_pos rfl]
  · rw [hbase, PAGE_SIZE]
    omega

theorem uprocessCreate_new {s : System} {p t pageDir : Ptr} (hfresh : Fresh s t)
    (hlow : (uprocessCreate s p t pageDir).largeAllocBase < 2 ^ 32) :
    NewRecord s (uprocessCreate s p t pageDir) t KSTACK_SIZE := by
  have hthread : ∀ x, (uprocessCreate s p t pageDir).thread x =
      if x = t then
        { esp := .user, stackBase := s.largeAllocBase, stackSize := KSTACK_SIZE, state := .ready
          process := p, next := 0 }
      else s.thread x := fun x => Function.update_apply ..
  have hbase : (uprocessCreate s p t pageDir).largeAllocBase =
      s.largeAllocBase + KSTACK_SIZE / PAGE_SIZE * PAGE_SIZE := rfl
  refine ⟨hfresh.1, hfresh.2.1, rfl, fun x hx => (hthread x).trans (if_neg hx), ?_, ?_, ?_, ?_,
    hlow, rfl, rfl, rfl, rfl⟩
  · rw [hthread, if_pos rfl]
  · rw [hthread, if_pos rfl]
  · rw [hthread, if_pos rfl]
  · rw [hbase, PAGE_SIZE, KSTACK_SIZE]

section Create

variable {ctx : Ptr → Option Cpu} {s : Hardware} {sys : System} {t : Ptr} {size : Nat} {c : Cpu}

/-- The frame that is written for the registers `c` is saved for the new thread,
and the frames of the other threads stay. -/
theorem NewRecord.saved (h : NewRecord s.sys sys t size) (skipped intNum errCode : Word)
    (hroom : frameSize c ≤ size)
    (hesp : privilege c.cs = 0 → c.esp = BitVec.ofNat 32 (s.sys.largeAllocBase + size)) :
    let s' := writeFrame { s with sys } t (frame c skipped intNum errCode).reverse
    Saved s' t c ∧ ∀ a, a < s.sys.largeAllocBase → s'.mem a = s.mem a := by
  have htop : stackTop sys t = s.sys.largeAllocBase + size := by
    rw [stackTop, h.stackBase, h.stackSize]
  have hlow := h.low
  have hle := h.top
  have hstart : (BitVec.ofNat 32 (stackTop sys t)).toNat = s.sys.largeAllocBase + size := by
    rw [htop, BitVec.toNat_ofNat, Nat.mod_eq_of_lt (by omega)]
  have hpushed := pushed_frame (s := (s.mem, BitVec.ofNat 32 (stackTop sys t))) (c := c)
    skipped intNum errCode (by rw [hstart]; omega) (fun hk => by rw [htop]; exact hesp hk)
  obtain ⟨hframe, hsp, hmem⟩ := hpushed
  rw [hstart] at hsp hmem
  have hself : (writeFrame { s with sys } t (frame c skipped intNum errCode).reverse).esp t =
      (pushAll (s.mem, BitVec.ofNat 32 (stackTop sys t))
        (frame c skipped intNum errCode).reverse).2 := Function.update_self ..
  refine ⟨⟨?_, ?_, ?_⟩, fun a ha => hmem a (by omega)⟩
  · rw [hself]
    exact hframe
  · rw [hself, hsp]
    show (sys.thread t).stackBase ≤ _
    rw [h.stackBase]
    omega
  · rw [hself, hsp]
    show _ ≤ stackTop sys t
    rw [htop]
    omega

theorem SwitchInv.created (hinv : SwitchInv ctx s) (h : NewRecord s.sys sys t size)
    (skipped intNum errCode : Word) (hroom : frameSize c ≤ size)
    (hesp : privilege c.cs = 0 → c.esp = BitVec.ofNat 32 (s.sys.largeAllocBase + size)) :
    SwitchInv (Function.update ctx t (some c))
      (writeFrame { s with sys } t (frame c skipped intNum errCode).reverse) := by
  have hne : ∀ x ∈ s.sys.thrds, x ≠ t := fun x hx heq => h.new (heq ▸ hx)
  have hold : ∀ x ∈ s.sys.thrds, sys.thread x = s.sys.thread x := fun x hx => h.old x (hne x hx)
  have htop : ∀ x ∈ s.sys.thrds, stackTop sys x = stackTop s.sys x := fun x hx => by
    rw [stackTop, hold x hx, stackTop]
  have hnew : stackTop sys t = s.sys.largeAllocBase + size := by
    rw [stackTop, h.stackBase, h.stackSize]
  have hbelow := hinv.layout.below
  have hle := h.top
  have hlow := h.low
  obtain ⟨hsaved, hmem⟩ := h.saved skipped intNum errCode hroom hesp
  refine ⟨⟨?_, ?_, ?_, ?_⟩, ⟨?_, ?_, ?_⟩, ?_, ?_⟩
  · show 0 ∉ sys.thrds
    rw [h.thrds]
    exact fun h0 => (List.mem_cons.mp h0).elim (fun heq => h.pos heq.symm) hinv.layout.pos
  · show ∀ x ∈ sys.thrds, ∀ y ∈ sys.thrds, x ≠ y →
      stackTop sys x ≤ (sys.thread y).stackBase ∨ stackTop sys y ≤ (sys.thread x).stackBase
    rw [h.thrds]
    rintro x (_ | ⟨_, hx⟩) y (_ | ⟨_, hy⟩) hxy
    · exact absurd rfl hxy
    · right
      rw [htop y hy, h.stackBase]
      exact hbelow y hy
    · left
      rw [htop x hx, h.stackBase]
      exact hbelow x hx
    · rw [htop x hx, htop y hy, hold x hx, hold y hy]
      exact hinv.layout.apart x hx y hy hxy
  · show ∀ x ∈ sys.thrds, stackTop sys x ≤ sys.largeAllocBase
    rw [h.thrds]
    rintro x (_ | ⟨_, hx⟩)
    · rw [hnew]
      exact hle
    · have hx' := hbelow x hx
      rw [htop x hx]
      omega
  · show ∀ x ∈ sys.thrds, stackTop sys x < 2 ^ 32
    rw [h.thrds]
    rintro x (_ | ⟨_, hx⟩)
    · omega
    · rw [htop x hx]
      exact hinv.layout.low x hx
  · show ∀ x ∈ sys.thrds, (sys.thread x).next = 0 ∨ (sys.thread x).next ∈ sys.thrds
    rw [h.thrds]
    rintro x (_ | ⟨_, hx⟩)
    · exact Or.inl h.next
    · rw [hold x hx]
      exact (hinv.links.next x hx).imp_right (List.mem_cons_of_mem t)
  · show sys.threadListHead = 0 ∨ sys.threadListHead ∈ sys.thrds
    rw [h.thrds, h.head]
    exact hinv.links.head.imp_right (List.mem_cons_of_mem t)
  · show sys.idleThread = 0 ∨ sys.idleThread ∈ sys.thrds
    rw [h.thrds, h.idle]
    exact hinv.links.idle.imp_right (List.mem_cons_of_mem t)
  · show sys.currThread ≠ 0 → sys.currThread ∈ sys.thrds ∧ sys.tssEsp0 = stackTop sys sys.currThread
    rw [h.thrds, h.currThread, h.tssEsp0]
    intro hpos
    obtain ⟨hcurr, htss⟩ := hinv.curr hpos
    rw [htop _ hcurr]
    exact ⟨List.mem_cons_of_mem t hcurr, htss⟩
  · show ∀ x ∈ sys.thrds, x ≠ sys.currThread → _
    rw [h.thrds, h.currThread]
    rintro x (_ | ⟨_, hx⟩) hcurr
    · exact ⟨c, Function.update_self .., hsaved⟩
    · obtain ⟨c', hc', hsaved'⟩ := hinv.saved x hx hcurr
      refine ⟨c', by rw [Function.update_of_ne (hne x hx), hc'], ?_⟩
      refine hsaved'.congr (hinv.layout.low x hx) (Function.update_of_ne (hne x hx) ..) ?_ ?_
        fun a ha => hmem a (Nat.lt_of_lt_of_le ha.2 (hbelow x hx))
      · show (sys.thread x).stackBase = _
        rw [hold x hx]
      · show (sys.thread x).stackSize = _
        rw [hold x hx]

end Create

/-! ## Interrupts -/

section Interrupt

variable {ctx : Ptr → Option Cpu} {s h : Hardware} {sp vec : Word} {c : Cpu}

/-- The registers and the flag of the timer are nobody's stack. -/
theorem undisturbed_cpu (s : Hardware) (cpu : Cpu) (pending : Bool) :
    Undisturbed s { s with sys := { s.sys with schedulePending := pending }, cpu } :=
  ⟨rfl, fun _ _ => rfl, fun _ _ => rfl, fun _ _ => rfl, rfl, rfl, rfl, rfl, Nat.le_refl _, rfl,
    fun _ _ _ _ _ => rfl⟩

/-- The current thread's saved registers are not used. -/
theorem SwitchInv.update_curr (hinv : SwitchInv ctx s) (c : Option Cpu) :
    SwitchInv (Function.update ctx s.sys.currThread c) s := by
  refine ⟨hinv.layout, hinv.links, hinv.curr, fun t ht hne => ?_⟩
  rw [Function.update_of_ne hne]
  exact hinv.saved t ht hne

/-- Where the frame of an interrupt lies. -/
theorem SwitchInv.entry (hinv : SwitchInv ctx s) (hfits : FrameFits s) :
    let top := (entryEsp s.cpu (BitVec.ofNat 32 s.sys.tssEsp0)).toNat
    frameSize s.cpu ≤ top ∧
      (s.sys.currThread ≠ 0 →
        (s.sys.thread s.sys.currThread).stackBase + frameSize s.cpu ≤ top ∧
          top ≤ stackTop s.sys s.sys.currThread) ∧
      ∀ t ∈ s.sys.thrds, t ≠ s.sys.currThread → ∀ a, InStack s.sys t a →
        a < top - frameSize s.cpu ∨ top ≤ a := by
  -- the rest follows when the frame is on the stack of the current thread
  have hown : ∀ top, s.sys.currThread ≠ 0 →
      (s.sys.thread s.sys.currThread).stackBase + frameSize s.cpu ≤ top →
      top ≤ stackTop s.sys s.sys.currThread → ∀ t ∈ s.sys.thrds, t ≠ s.sys.currThread →
      ∀ a, InStack s.sys t a → a < top - frameSize s.cpu ∨ top ≤ a := by
    intro top hpos hlo hhi t ht hne a ha
    obtain ⟨h1, h2⟩ := ha
    rcases hinv.layout.apart t ht _ (hinv.curr hpos).1 hne with hap | hap
    · left
      omega
    · right
      omega
  dsimp only
  by_cases huser : privilege s.cpu.cs ≠ 0
  · obtain ⟨hpos, hroom⟩ := hfits.user huser
    obtain ⟨hmem, htss⟩ := hinv.curr hpos
    have hlow := hinv.layout.low _ hmem
    have hsize : frameSize s.cpu = 76 := if_pos huser
    have htop : (entryEsp s.cpu (BitVec.ofNat 32 s.sys.tssEsp0)).toNat =
        stackTop s.sys s.sys.currThread := by
      rw [entryEsp, if_pos huser, htss, BitVec.toNat_ofNat, Nat.mod_eq_of_lt hlow]
    have hsum : stackTop s.sys s.sys.currThread =
        (s.sys.thread s.sys.currThread).stackBase + (s.sys.thread s.sys.currThread).stackSize := rfl
    rw [htop]
    have hlo : (s.sys.thread s.sys.currThread).stackBase + frameSize s.cpu ≤
        stackTop s.sys s.sys.currThread := by omega
    exact ⟨by omega, fun _ => ⟨hlo, Nat.le_refl _⟩, hown _ hpos hlo (Nat.le_refl _)⟩
  · have hsize : frameSize s.cpu = 68 := if_neg huser
    have htop : entryEsp s.cpu (BitVec.ofNat 32 s.sys.tssEsp0) = s.cpu.esp := if_neg huser
    rw [htop]
    by_cases hpos : s.sys.currThread ≠ 0
    · obtain ⟨hlo, hhi⟩ := hfits.kernel (not_not.mp huser) hpos
      rw [hsize]
      rw [hsize] at hown
      exact ⟨by omega, fun _ => ⟨hlo, hhi⟩, hown _ hpos hlo hhi⟩
    · obtain ⟨hlo, hout⟩ := hfits.boot (not_not.mp hpos)
      rw [hsize]
      refine ⟨hlo, fun h => absurd h hpos, fun t ht _ a ha => ?_⟩
      by_contra hin
      exact hout t ht a (by omega) (by omega) ha

/-- **A switch.**  The current thread keeps its frame, and the next one finds its
own. -/
theorem SwitchInv.switched (hinv : SwitchInv ctx h) (hpos : h.sys.currThread ≠ 0)
    (hsaved : Saved { h with esp := Function.update h.esp h.sys.currThread sp }
      h.sys.currThread c)
    {sys : System} {next : Ptr} (hnext : next ≠ 0)
    (hswitch : schedulerSwitch h.sys = some (next, sys)) :
    sys.currThread = next ∧
      SwitchInv (Function.update ctx h.sys.currThread (some c))
        { h with sys, esp := Function.update h.esp h.sys.currThread sp } ∧
      ∃ c', Function.update ctx h.sys.currThread (some c) next = some c' ∧
        Saved { h with sys, esp := Function.update h.esp h.sys.currThread sp } next c' := by
  obtain ⟨hcurr, htss⟩ := hinv.curr hpos
  have hto := schedulerSwitch_to hinv.links hcurr hnext hswitch
  have hall : ∀ t ∈ h.sys.thrds, ∃ c',
      Function.update ctx h.sys.currThread (some c) t = some c' ∧
        Saved { h with sys, esp := Function.update h.esp h.sys.currThread sp } t c' := by
    intro t ht
    by_cases heq : t = h.sys.currThread
    · subst heq
      exact ⟨c, Function.update_self .., hsaved.congr (hinv.layout.low _ ht) rfl
        (hto.stackBase _ ht) (hto.stackSize _ ht) fun _ _ => rfl⟩
    · obtain ⟨c', hc', hold⟩ := hinv.saved t ht heq
      refine ⟨c', by rw [Function.update_of_ne heq, hc'], ?_⟩
      exact hold.congr (hinv.layout.low t ht) (Function.update_of_ne heq ..)
        (hto.stackBase t ht) (hto.stackSize t ht) fun _ _ => rfl
  refine ⟨hto.currThread, ⟨hinv.layout.of_sameStacks hto.toSameStacks, hinv.links.congr hto.thrds
    (fun t ht => Or.inl (hto.links t ht)) (Or.inl hto.head) (Or.inl hto.idle), ?_, ?_⟩,
    hall next hto.known⟩
  · intro _
    show sys.currThread ∈ sys.thrds ∧ sys.tssEsp0 = stackTop sys sys.currThread
    rw [hto.currThread, hto.thrds, hto.stackTop hto.known]
    refine ⟨hto.known, ?_⟩
    by_cases hsame : next = h.sys.currThread
    · rw [hto.same hsame, htss, hsame]
    · exact hto.tssEsp0 hsame
  · intro t ht _
    have ht' : t ∈ sys.thrds := ht
    rw [hto.thrds] at ht'
    exact hall t ht'

theorem SwitchInv.irq (hinv : SwitchInv ctx s) (hfits : FrameFits s) {mem : Mem} {s' : Hardware}
    (hentry : irqEntry s.mem s.cpu (BitVec.ofNat 32 s.sys.tssEsp0) vec = (mem, sp))
    (hhandler : Undisturbed { s with mem } h)
    (hframe : ∀ a, sp.toNat ≤ a → a < sp.toNat + frameSize s.cpu → h.mem a = mem a)
    (hpriv : privilege h.cpu.cs = 0) (hexit : irqExit h sp = some s') :
    SwitchInv (Function.update ctx s.sys.currThread (some s.cpu)) s' ∧
      ∃ c, Function.update ctx s.sys.currThread (some s.cpu) s'.sys.currThread = some c ∧
        Resumed c s'.cpu := by
  obtain ⟨hroom, hown, hothers⟩ := hinv.entry hfits
  have hkernel : privilege s.cpu.cs = 0 →
      s.cpu.esp = entryEsp s.cpu (BitVec.ofNat 32 s.sys.tssEsp0) :=
    fun hk => (if_neg (not_not.mpr hk)).symm
  rw [irqEntry_eq] at hentry
  obtain ⟨hat, hsp, hmem⟩ := pushed_frame
    (s := (s.mem, entryEsp s.cpu (BitVec.ofNat 32 s.sys.tssEsp0)))
    (irqStub (interrupt s.mem s.cpu (BitVec.ofNat 32 s.sys.tssEsp0)) vec).2 vec 0 hroom hkernel
  rw [hentry] at hat hsp hmem
  dsimp only at hat hsp hmem hroom hown hothers
  have hlt := (entryEsp s.cpu (BitVec.ofNat 32 s.sys.tssEsp0)).isLt
  have hpushed : Undisturbed s { s with mem } :=
    ⟨rfl, fun _ _ => rfl, fun _ _ => rfl, fun _ _ => rfl, rfl, rfl, rfl, rfl, Nat.le_refl _, rfl,
      fun t ht hne a ha => hmem a (hothers t ht hne a ha)⟩
  have hafter := (hinv.undisturbed hpushed).undisturbed hhandler
  have hath : FrameAt h.mem sp s.cpu := hat.congr (by omega) hframe
  have hcurr : h.sys.currThread = s.sys.currThread := hhandler.currThread
  -- without a switch the frame is popped again
  have hback : ∀ pending, SwitchInv (Function.update ctx s.sys.currThread (some s.cpu))
        (resumeFrom { h with sys := { h.sys with schedulePending := pending } } sp) ∧
      ∃ c, Function.update ctx s.sys.currThread (some s.cpu) h.sys.currThread = some c ∧
        Resumed c (restore h.mem { h.cpu with esp := sp }) := by
    intro pending
    constructor
    · rw [← hcurr]
      exact (hafter.undisturbed (undisturbed_cpu h _ pending)).update_curr _
    · rw [hcurr]
      exact ⟨s.cpu, Function.update_self .., restore_frame hath hpriv⟩
  unfold irqExit at hexit
  split at hexit
  case isTrue hpending =>
    obtain rfl := Option.some.inj hexit
    exact hback h.sys.schedulePending
  case isFalse hpending =>
    dsimp only at hexit
    split at hexit
    case isTrue hboot =>
      obtain rfl := Option.some.inj hexit
      exact hback false
    case isFalse hpos =>
      obtain ⟨⟨next, sys⟩, hswitch, hs'⟩ := Option.bind_eq_some_iff.mp hexit
      dsimp only at hs'
      split at hs'
      · cases hs'
      case isFalse hnext =>
        obtain rfl := Option.some.inj hs'
        have hpos' : s.sys.currThread ≠ 0 := fun h0 => hpos (hcurr.trans h0)
        obtain ⟨hmem', -⟩ := hinv.curr hpos'
        obtain ⟨hlo, hhi⟩ := hown hpos'
        have hpending := hafter.undisturbed (undisturbed_cpu h h.cpu false)
        have hsaved : Saved { h with
            sys := { h.sys with schedulePending := false }
            esp := Function.update h.esp h.sys.currThread sp } h.sys.currThread s.cpu := by
          constructor
          · show FrameAt h.mem (Function.update h.esp h.sys.currThread sp h.sys.currThread) s.cpu
            rw [Function.update_self]
            exact hath
          · show (h.sys.thread h.sys.currThread).stackBase ≤
              (Function.update h.esp h.sys.currThread sp h.sys.currThread).toNat
            have hbase : (h.sys.thread s.sys.currThread).stackBase =
              (s.sys.thread s.sys.currThread).stackBase := hhandler.stackBase _ hmem'
            rw [Function.update_self, hcurr, hbase]
            omega
          · show (Function.update h.esp h.sys.currThread sp h.sys.currThread).toNat + _ ≤
              stackTop h.sys h.sys.currThread
            have htop : stackTop h.sys s.sys.currThread = stackTop s.sys s.sys.currThread :=
              hhandler.sameStacks.stackTop hmem'
            rw [Function.update_self, hcurr, htop]
            omega
        obtain ⟨hnew, hinv', c', hc', hsaved'⟩ := hpending.switched hpos hsaved hnext hswitch
        rw [← hcurr]
        refine ⟨hinv'.undisturbed (undisturbed_cpu _ _ _), c', ?_,
          restore_frame hsaved'.frame hpriv⟩
        show Function.update ctx h.sys.currThread (some s.cpu) sys.currThread = some c'
        rw [hnew]
        exact hc'

end Interrupt

/-! ## Runs -/

section Step

variable {ctx : Ptr → Option Cpu} {s : Hardware}

theorem SwitchInv.relinked (hinv : SwitchInv ctx s) {sys : System} (hlinks : Links sys)
    (hstacks : SameStacks s.sys sys) (hcurr : sys.currThread = s.sys.currThread)
    (htss : sys.tssEsp0 = s.sys.tssEsp0) : SwitchInv ctx { s with sys } := by
  refine ⟨hinv.layout.of_sameStacks hstacks, hlinks, ?_, ?_⟩
  · show sys.currThread ≠ 0 → sys.currThread ∈ sys.thrds ∧ sys.tssEsp0 = stackTop sys sys.currThread
    rw [hcurr, htss, hstacks.thrds]
    intro hpos
    obtain ⟨hmem, htop⟩ := hinv.curr hpos
    rw [hstacks.stackTop hmem]
    exact ⟨hmem, htop⟩
  · show ∀ t ∈ sys.thrds, t ≠ sys.currThread → _
    rw [hcurr, hstacks.thrds]
    intro t ht hne
    obtain ⟨c, hc, hsaved⟩ := hinv.saved t ht hne
    exact ⟨c, hc, hsaved.congr (hinv.layout.low t ht) rfl (hstacks.stackBase t ht)
      (hstacks.stackSize t ht) fun _ _ => rfl⟩

theorem SwitchInv.start (hinv : SwitchInv ctx s) {t : Ptr} (hboot : s.sys.currThread = 0)
    (ht : t ∈ s.sys.thrds) (hpriv : privilege s.cpu.cs = 0) :
    SwitchInv ctx (startThread s t) ∧ Transparent ctx (.start t (startThread s t).cpu) := by
  have hne : ∀ x ∈ s.sys.thrds, x ≠ s.sys.currThread := by
    rintro x hx rfl
    exact hinv.layout.pos (hboot ▸ hx)
  have hkeep : ∀ {β : Type} (g : ThreadT → β), (∀ r st, g { r with state := st } = g r) →
      ∀ x, g ((startThread s t).sys.thread x) = g (s.sys.thread x) :=
    fun g hg x => setThread_keeps g (fun r => hg r .running) _ t x
  have hbase := hkeep ThreadT.stackBase fun _ _ => rfl
  have hsize := hkeep ThreadT.stackSize fun _ _ => rfl
  have hstacks : SameStacks s.sys (startThread s t).sys :=
    ⟨rfl, fun x _ => hbase x, fun x _ => hsize x, Nat.le_refl _⟩
  refine ⟨⟨hinv.layout.of_sameStacks hstacks, hinv.links.congr rfl
    (fun x _ => Or.inl (hkeep ThreadT.next (fun _ _ => rfl) x)) (Or.inl rfl) (Or.inl rfl),
    fun _ => ⟨ht, rfl⟩, fun x hx _ => ?_⟩, ?_⟩
  · obtain ⟨c, hc, hsaved⟩ := hinv.saved x hx (hne x hx)
    exact ⟨c, hc, hsaved.congr (hinv.layout.low x hx) rfl (hbase x) (hsize x) fun _ _ => rfl⟩
  · obtain ⟨c, hc, hsaved⟩ := hinv.saved t ht (hne t ht)
    exact ⟨c, hc, restore_frame hsaved.frame hpriv⟩

end Step

theorem switchStep_inv {ctx : Ptr → Option Cpu} {s s' : Hardware} {e : SwitchEvent}
    (hinv : SwitchInv ctx s) (h : SwitchStep s e s') :
    SwitchInv (contextAfter ctx e) s' ∧ Transparent (contextAfter ctx e) e := by
  cases h with
  | @kthread t entry stackSize hfresh hroom hlow =>
    have hnew := kthreadCreate_new hfresh hlow
    have hsize : frameSize (kthreadCpu entry (BitVec.ofNat 32 (s.sys.largeAllocBase + stackSize))) =
        68 := if_neg (not_not.mpr (kthreadCpu_privilege _ _))
    have hcreated := hinv.created hnew 0 0 32 (hsize.trans_le hroom) fun _ => rfl
    rw [← kthreadWords_eq] at hcreated
    exact ⟨hcreated, trivial⟩
  | @uprocess p t pageDir entry initialUserEsp _ hfresh _ hlow =>
    have hnew := uprocessCreate_new hfresh hlow
    have huser := uprocessCpu_privilege entry initialUserEsp
    have hsize : frameSize (uprocessCpu entry initialUserEsp) = 76 := if_pos huser
    have hcreated := hinv.created hnew 0 32 0 (hsize.trans_le (by decide)) fun hk => absurd hk huser
    rw [← uprocessWords_eq] at hcreated
    exact ⟨hcreated, trivial⟩
  | schedulerAdd ht hadd =>
    obtain ⟨hlinks, hstacks, hcurr, htss⟩ := schedulerAdd_links hinv.links ht hadd
    exact ⟨hinv.relinked hlinks hstacks hcurr htss, trivial⟩
  | @idle t ht =>
    have hlinks : Links { s.sys with idleThread := t } :=
      hinv.links.congr rfl (fun _ _ => Or.inl rfl) (Or.inl rfl) (Or.inr ht)
    have hstacks : SameStacks s.sys { s.sys with idleThread := t } :=
      ⟨rfl, fun _ _ => rfl, fun _ _ => rfl, Nat.le_refl _⟩
    exact ⟨hinv.relinked hlinks hstacks rfl rfl, trivial⟩
  | run hund => exact ⟨hinv.undisturbed hund, trivial⟩
  | start hboot ht hpriv => exact hinv.start hboot ht hpriv
  | irq hfits hentry hhandler hframe hpriv hexit =>
    exact hinv.irq hfits hentry hhandler hframe hpriv hexit

theorem NoThreads.inv {s : Hardware} (h : NoThreads s) : SwitchInv (contexts []) s := by
  have hnone : ∀ t, t ∉ s.sys.thrds := fun t => by simp [h.thrds]
  exact {
    layout := ⟨hnone 0, fun t ht => absurd ht (hnone t), fun t ht => absurd ht (hnone t),
      fun t ht => absurd ht (hnone t)⟩
    links := ⟨fun t ht => absurd ht (hnone t), Or.inl h.head, Or.inl h.idle⟩
    curr := fun hpos => absurd h.currThread hpos
    saved := fun t ht => absurd ht (hnone t) }

theorem switchRun_inv {s s' : Hardware} {es : List SwitchEvent} (hboot : NoThreads s)
    (h : Run SwitchStep s es s') : SwitchInv (contexts es) s' := by
  refine h.history (I := fun es s => SwitchInv (contexts es) s) ?_ hboot.inv
  intro es s e t hinv hstep
  rw [contexts, List.foldl_append]
  exact (switchStep_inv hinv hstep).1

/-- **Context switches are transparent.**  In every run, each thread that is
started or resumed gets the registers it was interrupted with last, or those
its frame was built for. -/
theorem switches_transparent {s s' : Hardware} {es : List SwitchEvent} (hboot : NoThreads s)
    (h : Run SwitchStep s es s') {past rest : List SwitchEvent} {e : SwitchEvent}
    (hes : es = past ++ e :: rest) : Transparent (contexts (past ++ [e])) e := by
  subst hes
  obtain ⟨t, hpast, hrest⟩ := h.of_append
  obtain ⟨u, hstep, -⟩ := hrest.of_cons
  have hinv := switchRun_inv hboot hpast
  rw [contexts, List.foldl_append]
  exact (switchStep_inv hinv hstep).2

/-! ## A switch between two threads -/

/-- No threads yet. -/
def freshHardware : Hardware where
  sys :=
    { thread := fun _ => ⟨.kernel, 0, 0, .ready, 0, 0⟩
      proc := fun _ => ⟨0, 0, 0, .running, 0, 0, 0⟩
      threadListHead := 0, idleThread := 0, currThread := 0, currProcess := 0, processList := 0
      nextPid := 1, schedulePending := false, largeAllocBase := LARGE_ALLOC_BASE, tssEsp0 := 0
      cr3 := 0, kernelPdPhys := 0, tty := ⟨fun _ => 0, 0, 0, 0, 0⟩, running := .kernel
      inIrq := false, thrds := [], procs := [], freedThrds := [], freedProcs := [] }
  mem := fun _ => 0
  cpu := kthreadCpu 0 0
  esp := fun _ => 0

/-- The threads 1 and 2. -/
def twoThreads : Hardware :=
  kthreadFrame (kthreadFrame freshHardware 1 0x1000 KSTACK_SIZE) 2 0x2000 KSTACK_SIZE

/-- The thread 1 in a ring of its own, and both threads in one. -/
def ringOne : System :=
  setThread { twoThreads.sys with threadListHead := 1 } 1 fun r => { r with next := 1 }

def ringTwo : System :=
  setThread (setThread ringOne 1 fun r => { r with next := 2 }) 2 fun r => { r with next := 1 }

theorem ringTwo_add : schedulerAdd ringOne 2 = some ringTwo := by
  have htail : ringTail ringOne = some 1 := by
    have hfuel : 2 ^ 32 = 2 ^ 32 - 1 + 1 := by decide
    rw [ringTail, hfuel, walkWhile]
    rfl
  have hhead : ringOne.threadListHead ≠ 0 := by decide
  rw [schedulerAdd, if_neg hhead, htail]
  rfl

/-- Up to the start of thread 1. -/
theorem threadOne_run : ∃ es, Run SwitchStep freshHardware es { twoThreads with sys := ringTwo } ∧
    contexts es 1 =
      some (kthreadCpu 0x1000 (BitVec.ofNat 32 (LARGE_ALLOC_BASE + KSTACK_SIZE))) := by
  have hone : SwitchStep freshHardware _ (kthreadFrame freshHardware 1 0x1000 KSTACK_SIZE) :=
    .kthread (by decide) (by decide) (by decide)
  have htwo : SwitchStep (kthreadFrame freshHardware 1 0x1000 KSTACK_SIZE) _ twoThreads :=
    .kthread (by decide) (by decide) (by decide)
  have hadd : SwitchStep twoThreads _ { twoThreads with sys := ringOne } :=
    .schedulerAdd (t := 1) (by decide) (if_pos rfl)
  have hadd' : SwitchStep { twoThreads with sys := ringOne } _ { twoThreads with sys := ringTwo } :=
    .schedulerAdd (by decide) ringTwo_add
  exact ⟨_, .step hone (.step htwo (.step hadd (.single hadd'))), rfl⟩

/-- The scheduler goes from thread 1 to thread 2. -/
theorem ringTwo_switch : ∃ sys,
    schedulerSwitch { (startThread { twoThreads with sys := ringTwo } 1).sys with
      schedulePending := false } = some (2, sys) ∧ sys.currThread = 2 := by
  generalize hS : ({ (startThread { twoThreads with sys := ringTwo } 1).sys
    with schedulePending := false } : System) = S
  have hnext : schedulerNext (saveEsp S) = some 2 := by
    have hfuel : 2 ^ 32 = 2 ^ 32 - 1 + 1 := by decide
    rw [← hS, schedulerNext, hfuel]
    rfl
  have hcurr : S.currThread = 1 := by rw [← hS]; rfl
  refine ⟨switchTo (saveEsp S) S.currThread 2, ?_, rfl⟩
  show Option.map _ (schedulerNext (saveEsp S)) = _
  rw [hnext, Option.map_some]
  have hother : ¬ 2 = (saveEsp S).currThread := by
    rw [show (saveEsp S).currThread = 1 from hcurr]
    decide
  exact congrArg some (if_neg hother)

/-- The thread 1 is interrupted by the timer, which switches to 2. -/
theorem twoThreads_run : ∃ s past c c',
    Run SwitchStep freshHardware (past ++ [.irq 1 c 2 c']) s := by
  obtain ⟨es, hrun, hctx⟩ := threadOne_run
  have hboot : NoThreads freshHardware := ⟨rfl, rfl, rfl, rfl⟩
  have hstart : SwitchStep { twoThreads with sys := ringTwo } _
      (startThread { twoThreads with sys := ringTwo } 1) := .start rfl (by decide) (by decide)
  obtain ⟨-, c, hc, hresumed⟩ :=
    (switchRun_inv hboot hrun).start (t := 1) rfl (by decide) (by decide)
  obtain rfl := Option.some.inj (hctx.symm.trans hc)
  obtain ⟨sys, hswitch, hcurr⟩ := ringTwo_switch
  generalize hs : startThread { twoThreads with sys := ringTwo } 1 = s at hstart hresumed hswitch
  have hsys : s.sys = (startThread { twoThreads with sys := ringTwo } 1).sys := by rw [hs]
  rw [Resumed, if_neg (not_not.mpr (kthreadCpu_privilege _ _))] at hresumed
  have hpriv : privilege s.cpu.cs = 0 := by
    rw [hresumed]
    exact kthreadCpu_privilege 0 0
  have hesp : s.cpu.esp = BitVec.ofNat 32 (LARGE_ALLOC_BASE + KSTACK_SIZE) := by rw [hresumed]; rfl
  have hone : s.sys.currThread = 1 := by rw [hsys]; rfl
  have hfits : FrameFits s := by
    refine ⟨fun h => absurd hpriv h, fun _ _ => ?_, fun h => ?_⟩
    · rw [hesp, hsys]
      decide
    · rw [hone] at h
      cases h
  -- the timer asks for a switch
  obtain ⟨⟨mem, sp⟩, hentry⟩ : ∃ r, irqEntry s.mem s.cpu (BitVec.ofNat 32 s.sys.tssEsp0) 32 = r :=
    ⟨_, rfl⟩
  have hexit : irqExit { s with mem, sys := { s.sys with schedulePending := true } } sp =
      some (resumeFrom { s with mem, sys, esp := Function.update s.esp s.sys.currThread sp }
        (Function.update s.esp s.sys.currThread sp 2)) := by
    have hpos : s.sys.currThread ≠ 0 := by rw [hone]; decide
    rw [irqExit, if_neg (show ¬ (true = false) by decide)]
    dsimp only
    rw [if_neg hpos, hswitch, Option.bind_some]
    rfl
  have hirq := SwitchStep.irq hfits hentry (undisturbed_cpu { s with mem } s.cpu true)
    (fun _ _ _ => rfl) hpriv hexit
  have hlabel : (resumeFrom { s with mem, sys, esp := Function.update s.esp s.sys.currThread sp }
      (Function.update s.esp s.sys.currThread sp 2)).sys.currThread = 2 := hcurr
  rw [hlabel] at hirq
  exact ⟨_, es ++ [_], s.cpu, _, hone ▸ (hrun.snoc hstart).snoc hirq⟩

/-- Thread 2 starts with the registers that its frame was built for. -/
theorem twoThreads_transparent : ∃ past c c',
    Transparent (contexts (past ++ [.irq 1 c 2 c'])) (.irq 1 c 2 c') := by
  obtain ⟨s, past, c, c', hrun⟩ := twoThreads_run
  exact ⟨past, c, c', switches_transparent ⟨rfl, rfl, rfl, rfl⟩ hrun rfl⟩

end FrogKernel.Process
