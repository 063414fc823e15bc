import FrogKernel.Devices.Keyboard
import FrogKernel.Userspace.Readers
import FrogKernel.Userspace.Scripts
import Mathlib.Data.List.Infix

/-!
# Keys during boot (`kernel.c`, `devices/keyboard/keyboard.c`, `devices/tty/tty.c`)

Interrupts are on while `kmain` runs, and the keyboard has its handler from
`keyboard_init` on.  `tty_input_push` looks at `curr_thread->state`, but
`curr_thread` is `NULL` until `kmain` has created the first threads; the timer
asks for that.

Main result: `earlyKeys_iff`, which keys are fatal, and when.
-/

namespace FrogKernel.EarlyKeys

open FrogKernel.Keyboard FrogKernel.Process FrogKernel.Runs FrogKernel.Tty

/-! ## The end of `kmain` -/

/-- The statements of `kmain` from `keyboard_init` on. -/
inductive Stmt where
  | keyboardInit
  | userspaceInit
  | fbRegister
  | consoleInit
  | ttyRegister
  | createIdle
  | idleReady
  | createMain
  | mainReady
  /-- From `vfs_open` to `uprocess_load`. -/
  | loadInit
  | createInit
  | freeBuffers
  | addIdle
  | addMain
  | addInit
  /-- `curr_thread = main_thread` -/
  | setCurrent
  | setRunning
  | setKernelStack
  /-- The `iret` into the main thread. -/
  | start
  deriving DecidableEq

/-- The statements that create the threads. -/
def createStmts : List Stmt :=
  [.keyboardInit, .userspaceInit, .fbRegister, .consoleInit, .ttyRegister, .createIdle, .idleReady,
    .createMain, .mainReady, .loadInit, .createInit, .freeBuffers]

def kmainStmts : List Stmt :=
  createStmts ++ [.addIdle, .addMain, .addInit, .setCurrent, .setRunning, .setKernelStack, .start]

/-- What a statement does to the threads. -/
def exec (b : Boot) (s : System) : Stmt → Option System
  | .createIdle => some { kthreadCreate s b.idle KSTACK_SIZE with idleThread := b.idle }
  | .idleReady => some (setThread s s.idleThread fun r => { r with state := .ready })
  | .createMain => some (kthreadCreate s b.main KSTACK_SIZE)
  | .mainReady => some (setThread s b.main fun r => { r with state := .ready })
  | .createInit => some (uprocessCreate s b.init b.initThread b.pageDir)
  | .addIdle => schedulerAdd s s.idleThread
  | .addMain => schedulerAdd s b.main
  | .addInit => schedulerAdd s (s.proc b.init).thread
  | .setCurrent => some { s with currThread := b.main }
  | .setRunning => some (setThread s s.currThread fun r => { r with state := .running })
  | .setKernelStack =>
    some { s with tssEsp0 := (s.thread s.currThread).stackBase + (s.thread s.currThread).stackSize }
  | .start => some { s with running := (s.thread s.currThread).esp }
  | _ => some s

/-- Before there are threads. -/
def noThreads (b : Boot) : System :=
  { thread := b.thread, proc := b.proc, threadListHead := 0, idleThread := 0, currThread := 0
    currProcess := 0, processList := 0, nextPid := 1, schedulePending := false
    largeAllocBase := b.largeAllocBase, tssEsp0 := 0, cr3 := b.kernelPdPhys
    kernelPdPhys := b.kernelPdPhys, tty := b.tty, running := .kernel, inIrq := false
    thrds := [], procs := [], freedThrds := [], freedProcs := [] }

/-- A state that is `ready` already. -/
theorem setThread_ready {s : System} {t : Ptr} (h : (s.thread t).state = .ready) :
    (setThread s t fun r => { r with state := .ready }) = s := by
  have hsame : ({ s.thread t with state := .ready } : ThreadT) = s.thread t := by
    rw [← h]
  rw [setThread, hsame, Function.update_eq_self]

theorem createStmts_exec (b : Boot) :
    createStmts.foldlM (exec b) (noThreads b) = some (bootRecords b) := by
  have hidle : ∀ s : System, (setThread { kthreadCreate s b.idle KSTACK_SIZE with idleThread := b.idle }
      b.idle fun r => { r with state := .ready }) =
      { kthreadCreate s b.idle KSTACK_SIZE with idleThread := b.idle } := fun s =>
    setThread_ready (by simp [kthreadCreate, setThread])
  have hmain : ∀ s : System, (setThread (kthreadCreate s b.main KSTACK_SIZE) b.main
      fun r => { r with state := .ready }) = kthreadCreate s b.main KSTACK_SIZE := fun s =>
    setThread_ready (by simp [kthreadCreate, setThread])
  simp only [createStmts, List.foldlM_cons, List.foldlM_nil, exec, Option.bind_eq_bind,
    Option.bind_some, hmain, hidle]
  rfl

/-- **Without interrupts** the statements do what `kmain` does. -/
theorem kmainStmts_exec (b : Boot) : kmainStmts.foldlM (exec b) (noThreads b) = kmain b := by
  rw [kmainStmts, List.foldlM_append, createStmts_exec]
  simp only [List.foldlM_cons, List.foldlM_nil, exec, Option.bind_eq_bind, Option.bind_some]
  rw [kmain]
  refine congrArg _ (funext fun s1 => ?_)
  refine congrArg _ (funext fun s2 => ?_)
  cases schedulerAdd s2 (s2.proc b.init).thread <;> rfl

/-! ## The machine -/

/-- The kernel with its keyboard, `registered` from `irq_register(1, …)` on, and
the statements still to come.  `faulted` when `NULL` was dereferenced. -/
structure State where
  sys : System
  keyboard : KeyboardT
  registered : Bool
  todo : List Stmt
  faulted : Bool

def start (b : Boot) : State :=
  { sys := noThreads b, keyboard := keyboardInit, registered := false, todo := kmainStmts
    faulted := false }

inductive Event where
  | stmt (x : Stmt)
  | key (scancode : BitVec 8)
  | irq (src : Irq)
  | sys (e : Process.Event)

/-- The handler of the keyboard interrupt, and the character it passes on. -/
def keyInput (s : State) (scancode : BitVec 8) : KeyboardT × Option (BitVec 8) :=
  if s.registered then keyboardCallback s.keyboard scancode else (s.keyboard, none)

/-- Does `tty_input_push` get to its test of `curr_thread->state`? -/
def readsCurrent (s : State) (scancode : BitVec 8) : Bool :=
  (keyInput s scancode).2.any (reachesWake s.sys)

def keyIrq (s : State) (scancode : BitVec 8) : Irq :=
  ((keyInput s scancode).2.map Irq.keyboard).getD .other

/-- The interrupt of a device. -/
def interrupted (s : System) (src : Irq) : System :=
  { irqHandler s src with running := s.running.afterHlt, inIrq := true }

/-- A statement of `kmain`, an interrupt, or another step of the process system.
A statement needs that `kmain` runs: before there are threads, or as the main
thread. -/
inductive Step (b : Boot) : State → Event → State → Prop
  | stmt {s : State} {x : Stmt} {rest : List Stmt} {sys : System} : s.faulted = false →
      s.todo = x :: rest → s.sys.running = .kernel → s.sys.inIrq = false →
      s.sys.currThread = 0 ∨ s.sys.currThread = b.main → exec b s.sys x = some sys →
      Step b s (.stmt x)
        { s with sys, registered := s.registered || x = .keyboardInit, todo := rest }
  | key {s : State} {scancode : BitVec 8} : s.faulted = false →
      s.sys.running.interruptible = true → s.sys.inIrq = false →
      ¬ (readsCurrent s scancode = true ∧ s.sys.currThread = 0) →
      Step b s (.key scancode)
        { s with sys := interrupted s.sys (keyIrq s scancode), keyboard := (keyInput s scancode).1 }
  | nullKey {s : State} {scancode : BitVec 8} : s.faulted = false →
      s.sys.running.interruptible = true → s.sys.inIrq = false → readsCurrent s scancode = true →
      s.sys.currThread = 0 → Step b s (.key scancode) { s with faulted := true }
  | irq {s : State} {src : Irq} : s.faulted = false → (∀ c, src ≠ .keyboard c) →
      s.sys.running.interruptible = true → s.sys.inIrq = false →
      Step b s (.irq src) { s with sys := interrupted s.sys src }
  | sys {s : State} {e : Process.Event} {sys : System} : s.faulted = false →
      (∀ woken, e ≠ .irq woken) → SysStep s.sys e sys → Step b s (.sys e) { s with sys }

/-! ## The keys that `tty_input_push` stores -/

/-- The keys with a character, less backspace. -/
def textKey (scancode : BitVec 8) : Prop :=
  0x02 ≤ scancode ∧ scancode ≤ 0x39 ∧
    scancode ∉ ([0x0e, 0x1d, 0x2a, 0x36, 0x38] : List (BitVec 8))

instance (scancode : BitVec 8) : Decidable (textKey scancode) :=
  inferInstanceAs (Decidable (_ ∧ _ ∧ _))

/-- The character of a byte that is no modifier key. -/
def keyChar (shifted : Bool) (b : BitVec 8) : Option (BitVec 8) :=
  if (b &&& 0x7f).toNat ≥ scancodeMap.length then none
  else
    let c := if shifted then scancodeMapShift.getD (b &&& 0x7f).toNat 0
      else scancodeMap.getD (b &&& 0x7f).toNat 0
    if c = 0 then none else if b &&& KEY_RELEASED = 0 then some c else none

theorem charCallback_char (k : KeyboardT) (b : BitVec 8) :
    (charCallback k b).2 = keyChar (k.mods &&& (L_SHIFT ||| R_SHIFT) ≠ 0) b := by
  unfold charCallback keyChar
  simp only [decide_eq_true_eq]
  by_cases hlen : (b &&& 0x7f).toNat ≥ scancodeMap.length
  · rw [if_pos hlen, if_pos hlen]
  · rw [if_neg hlen, if_neg hlen]
    generalize (if k.mods &&& (L_SHIFT ||| R_SHIFT) ≠ 0 then
      scancodeMapShift.getD (b &&& 0x7f).toNat 0 else scancodeMap.getD (b &&& 0x7f).toNat 0) = c
    by_cases hc : c = 0
    · rw [if_pos hc, if_pos hc]
    · rw [if_neg hc, if_neg hc]

/-- With Shift or without. -/
theorem keyChar_text : ∀ (shifted : Bool) (b : BitVec 8),
    (b ≠ 0xe0 ∧ b &&& 0x7f ∉ ([0x2a, 0x36, 0x1d, 0x38] : List (BitVec 8)) ∧
      (keyChar shifted b).any (· != backspace) = true) ↔ textKey b := by
  decide +kernel

/-- `keyboard_callback` passes a character other than backspace. -/
theorem callback_text (k : KeyboardT) (b : BitVec 8) :
    (keyboardCallback k b).2.any (· != backspace) = true ↔ k.extended = false ∧ textKey b := by
  rw [← keyChar_text (k.mods &&& (L_SHIFT ||| R_SHIFT) ≠ 0), ← charCallback_char]
  by_cases hb : b = 0xe0
  · rw [keyboardCallback, if_pos hb]
    simp [hb]
  by_cases hext : k.extended = true
  · rw [callback_of_extended hb hext, hext]
    simp only [apply_ite Prod.snd, ite_self]
    simp
  rw [callback_of_plain hb (Bool.eq_false_of_not_eq_true hext), Bool.eq_false_of_not_eq_true hext]
  simp only [List.mem_cons, List.not_mem_nil, or_false, not_or]
  by_cases hmod : b &&& 0x7f = 0x2a ∨ b &&& 0x7f = 0x36 ∨ b &&& 0x7f = 0x1d ∨ b &&& 0x7f = 0x38
  · rcases hmod with h | h | h | h <;> rw [h] <;> simp
  · obtain ⟨h1, h2, h3, h4⟩ : _ ∧ _ ∧ _ ∧ _ := by simpa only [not_or] using hmod
    rw [if_neg h1, if_neg h2, if_neg h3, if_neg h4]
    exact ⟨fun h => ⟨trivial, hb, ⟨h1, h2, h3, h4⟩, h⟩, fun h => h.2.2.2⟩

/-- `tty_input_push` stores the character of the key. -/
theorem readsCurrent_iff (s : State) (b : BitVec 8) : readsCurrent s b = true ↔
    s.registered = true ∧ s.keyboard.extended = false ∧ textKey b ∧
      s.sys.tty.ringCount < TTY_RING_SIZE := by
  have hany : ∀ o : Option (BitVec 8), o.any (reachesWake s.sys) = true ↔
      o.any (· != backspace) = true ∧ s.sys.tty.ringCount < TTY_RING_SIZE := by
    rintro (_ | c)
    · simp
    · simp [reachesWake]
  rw [readsCurrent, hany, keyInput]
  by_cases hreg : s.registered = true
  · rw [if_pos hreg, callback_text, hreg]
    simp only [true_and, and_assoc]
  · rw [if_neg hreg]
    simp [hreg]

/-! ## Who sets `curr_thread` -/

theorem exec_threads {b : Boot} {s s' : System} {x : Stmt} (h : exec b s x = some s') :
    s'.currThread = (if x = .setCurrent then b.main else s.currThread) ∧
      s'.idleThread = if x = .createIdle then b.idle else s.idleThread := by
  cases x with
  | addIdle | addMain | addInit =>
    obtain ⟨hcurr, hidle, -⟩ := schedulerAdd_same h
    exact ⟨hcurr, hidle⟩
  | _ =>
    cases h
    exact ⟨rfl, rfl⟩

theorem waitStatement_threads {s s' : System} {w : WaitCall} {sti : Bool} {stmt : WaitStmt}
    (h : waitStatement s w sti stmt = some s') :
    s'.currThread = s.currThread ∧ s'.idleThread = s.idleThread := by
  cases stmt with
  | remove =>
    obtain ⟨t, hremove, rfl⟩ := Option.map_eq_some_iff.mp h
    obtain ⟨hcurr, hidle, -⟩ := uprocessRemoveLoop_same hremove
    exact ⟨hcurr, hidle⟩
  | _ =>
    cases h
    exact ⟨rfl, rfl⟩

/-- The scheduler never picks `NULL` but for the idle thread. -/
theorem schedulerNextLoop_ne {s : System} (hidle : s.idleThread ≠ 0) {start : Ptr} :
    ∀ {n : Nat} {t r : Ptr}, schedulerNextLoop s start n t = some r → r ≠ 0
  | 0, _, _, h => by cases h
  | n + 1, t, r, h => by
    unfold schedulerNextLoop at h
    split at h
    · cases h
    case isFalse hpos =>
    split at h
    · dsimp only at h
      split at h
      · cases h
        exact hidle
      · exact schedulerNextLoop_ne hidle h
    · cases h
      exact hpos

theorem schedulerNext_ne {s : System} (hidle : s.idleThread ≠ 0) {r : Ptr}
    (h : schedulerNext s = some r) : r ≠ 0 := by
  unfold schedulerNext at h
  split at h
  · cases h
    exact hidle
  · exact schedulerNextLoop_ne hidle h

theorem quiet_threads {s s' : System} (h : Quiet s s') :
    s'.currThread = s.currThread ∧ s'.idleThread = s.idleThread :=
  ⟨h.currThread, h.idle⟩

/-- `curr_thread` stays `NULL` or stays a thread. -/
theorem sysStep_threads {s s' : System} {e : Process.Event} (h : SysStep s e s')
    (hidle : s.currThread ≠ 0 → s.idleThread ≠ 0) :
    (s'.currThread = 0 ↔ s.currThread = 0) ∧ s'.idleThread = s.idleThread := by
  have hsame : ∀ {t : System}, t.currThread = s.currThread ∧ t.idleThread = s.idleThread →
      (t.currThread = 0 ↔ s.currThread = 0) ∧ t.idleThread = s.idleThread := fun ht =>
    ⟨by rw [ht.1], ht.2⟩
  cases h with
  | @spawn _ p t pageDir reused mt mp _ _ _ _ _ _ _ _ hspawn =>
    obtain ⟨hcurr, hidle, -⟩ :=
      schedulerAdd_same (s := spawnRecords (overwrite s reused mt mp) p t pageDir) hspawn
    exact hsame ⟨hcurr, hidle⟩
  | exit => exact hsame (quiet_threads (quiet_sysExit s _))
  | wait _ _ hwait => exact hsame (quiet_threads (quiet_sysWait hwait))
  | waitStatement _ _ _ hstmt => exact hsame (waitStatement_threads hstmt)
  | waitReturn _ _ hstmt => exact hsame (waitStatement_threads hstmt)
  | ttyRead => exact hsame (quiet_threads (quiet_ttyReadLoop s _))
  | ttyResume =>
    exact hsame (quiet_threads ((quiet_threadState s _ .running).trans (quiet_ttyReadLoop _ _)))
  | @irq src =>
    have hq := quiet_threads (quiet_irqHandler s src)
    exact hsame ⟨hq.1, hq.2⟩
  | switch _ _ hcurr hswitch =>
    obtain ⟨hnext, ⟨-, rfl⟩ | ⟨-, rfl⟩⟩ := schedulerSwitch_some hswitch
    · exact hsame ⟨rfl, rfl⟩
    · have hne := schedulerNext_ne (s := saveEsp { s with schedulePending := false }) (hidle hcurr) hnext
      exact ⟨iff_of_false hne hcurr, rfl⟩
  | spawnFailed | waitEnds | irqReturn => exact hsame ⟨rfl, rfl⟩

/-! ## All runs -/

/-- What every run keeps that meets no fatal key. -/
structure Sound (b : Boot) (s : State) : Prop where
  faulted : s.faulted = false
  todo : s.todo <:+ kmainStmts
  curr : s.sys.currThread = 0 ↔ .setCurrent ∈ s.todo
  idle : .createIdle ∈ s.todo ∨ s.sys.idleThread = b.idle

/-- `kmain` creates the idle thread before it sets `curr_thread`. -/
theorem idle_first {todo : List Stmt} (h : todo <:+ kmainStmts) :
    .createIdle ∈ todo → .setCurrent ∈ todo := by
  have hall : ∀ l ∈ kmainStmts.tails, .createIdle ∈ l → .setCurrent ∈ l := by decide
  exact hall todo (List.mem_tails todo kmainStmts |>.mpr h)

theorem sound_start (b : Boot) : Sound b (start b) where
  faulted := rfl
  todo := List.suffix_refl _
  curr := iff_of_true rfl (show .setCurrent ∈ kmainStmts by decide)
  idle := Or.inl (show .createIdle ∈ kmainStmts by decide)

variable {b : Boot} {s t : State}

/-- While `curr_thread` is set, there is an idle thread to fall back on. -/
theorem Sound.idle_ne (h : Sound b s) (hcurr : s.sys.currThread ≠ 0) : s.sys.idleThread ≠ 0 := by
  rcases h.idle with hmem | hidle
  · exact absurd (h.curr.mpr (idle_first h.todo hmem)) hcurr
  · rw [hidle]
    exact b.nonzero.1

/-- A step of the process system, or an interrupt. -/
theorem Sound.of_threads (h : Sound b s) (hfaulted : t.faulted = false) (htodo : t.todo = s.todo)
    (hcurr : t.sys.currThread = 0 ↔ s.sys.currThread = 0)
    (hidle : t.sys.idleThread = s.sys.idleThread) : Sound b t where
  faulted := hfaulted
  todo := htodo ▸ h.todo
  curr := by rw [hcurr, h.curr, htodo]
  idle := by rw [htodo, hidle]; exact h.idle

theorem Sound.interrupted (h : Sound b s) (src : Irq) (keyboard : KeyboardT) :
    Sound b { s with sys := interrupted s.sys src, keyboard } := by
  have hq := quiet_threads (quiet_irqHandler s.sys src)
  exact h.of_threads h.faulted rfl (iff_of_eq (congrArg (· = 0) hq.1)) hq.2

/-- A statement of `kmain`. -/
theorem Sound.stmt (h : Sound b s) {x : Stmt} {rest : List Stmt} {sys : System}
    (htodo : s.todo = x :: rest) (hexec : exec b s.sys x = some sys) (registered : Bool) :
    Sound b { s with sys, registered, todo := rest } := by
  obtain ⟨hcurr, hidle⟩ := exec_threads hexec
  have hsuffix : x :: rest <:+ kmainStmts := htodo ▸ h.todo
  have hnodup : (x :: rest).Nodup := hsuffix.sublist.nodup (by decide)
  have hnot : x ∉ rest := (List.nodup_cons.mp hnodup).1
  constructor
  · exact h.faulted
  · exact (List.suffix_cons x rest).trans hsuffix
  · change sys.currThread = 0 ↔ .setCurrent ∈ rest
    rw [hcurr]
    by_cases hx : x = .setCurrent
    · rw [if_pos hx]
      exact iff_of_false b.nonzero.2.1 (hx ▸ hnot)
    · rw [if_neg hx, h.curr, htodo, List.mem_cons, or_iff_right (Ne.symm hx)]
  · change .createIdle ∈ rest ∨ sys.idleThread = b.idle
    rw [hidle]
    by_cases hx : x = .createIdle
    · exact Or.inr (if_pos hx)
    · rw [if_neg hx]
      have hold := h.idle
      rwa [htodo, List.mem_cons, or_iff_right (Ne.symm hx)] at hold

/-- No key comes with a character for the ring before `curr_thread` is set. -/
def KeysWait (s : State) : Event → Prop
  | .key scancode => s.registered = true → .setCurrent ∈ s.todo →
      ¬ (s.keyboard.extended = false ∧ textKey scancode ∧ s.sys.tty.ringCount < TTY_RING_SIZE)
  | _ => True

/-- **One step.** -/
theorem sound_step {e : Event} (h : Sound b s) (hkeys : KeysWait s e) (hstep : Step b s e t) :
    Sound b t := by
  cases hstep with
  | stmt _ htodo _ _ _ hexec => exact h.stmt htodo hexec _
  | key => exact h.interrupted _ _
  | nullKey _ _ _ hreads hnull =>
    obtain ⟨hreg, htext⟩ := (readsCurrent_iff s _).mp hreads
    exact absurd htext (hkeys hreg (h.curr.mp hnull))
  | irq => exact h.interrupted _ _
  | sys _ _ hsys =>
    obtain ⟨hcurr, hidle⟩ := sysStep_threads hsys h.idle_ne
    exact h.of_threads h.faulted rfl hcurr hidle

/-- **A fatal key.** -/
theorem fatal_step {e : Event} (h : Sound b s) (hkeys : ¬ KeysWait s e) (hstep : Step b s e t) :
    t.faulted ≠ false := by
  cases hstep with
  | key _ _ _ hsafe =>
    simp only [KeysWait, Classical.not_imp, not_not] at hkeys
    obtain ⟨hreg, hmem, htext⟩ := hkeys
    exact absurd ⟨(readsCurrent_iff s _).mpr ⟨hreg, htext⟩, h.curr.mpr hmem⟩ hsafe
  | nullKey => exact Bool.noConfusion
  | _ => exact absurd trivial hkeys

/-- **Keys.**  In every run from `keyboard_init` on, `NULL` is never dereferenced
exactly when no key came with a character for the ring too early. -/
theorem earlyKeys_iff (b : Boot) (es : List Event) (s : State) :
    Always (Step b) (fun s => s.faulted = false) (start b) es s ↔
      EachStep (Step b) KeysWait (start b) es s :=
  Run.always_iff (I := Sound b) (C := KeysWait) (fun _ h => h.faulted)
    (fun _ _ _ h hr => sound_step h hr.1 hr.2) (fun _ _ _ h hC hr => fatal_step h hC hr)
    (sound_start b)

/-- The key A right after `keyboard_init`. -/
theorem earlyKey_faults :
    ¬ ∀ (b : Boot) (es : List Event) (s : State), Run (Step b) (start b) es s →
      s.faulted = false := by
  intro h
  have hinit : Step smallBoot (start smallBoot) (.stmt .keyboardInit)
      { start smallBoot with registered := true, todo := kmainStmts.tail } :=
    .stmt rfl rfl rfl rfl (Or.inl rfl) rfl
  have hkey : Step smallBoot { start smallBoot with registered := true, todo := kmainStmts.tail }
      (.key 0x1e) { start smallBoot with registered := true, todo := kmainStmts.tail, faulted := true } :=
    .nullKey rfl rfl rfl (by decide +kernel) rfl
  exact absurd (h smallBoot _ _ (.step hinit (.step hkey (.refl _)))) (by decide)

end FrogKernel.EarlyKeys
