import FrogKernel.Interrupts.Descriptors
import FrogKernel.Lib.Runs

/-!
# From an interrupt to its handler and back (`idt/idt.c`, `idt/isr_stubs.s`)

The processor finds a gate in the table that `idt_init` has written, takes the kernel
stack from the task state segment and pushes a part of the registers; the code at the
gate pushes the others, and pops all of them after the handler.

Main result: `delivered`, every exception, interrupt and `int` instruction gets to its
handler with the registers as they were and its own number, and gets back; the only
`int` of a user that is let through is `0x80`.
-/

namespace FrogKernel.Interrupts

open FrogKernel.Bytes FrogKernel.Runs FrogKernel.Stacks
open FrogKernel.Process (Cpu FrameAt Resumed Selector entryEsp frame frameSize frame_length interrupt
  privilege pushed_frame restore restore_frame saveRegisters wide)

/-! ## `idt.c` -/

/-- The labels in `isr_stubs.s`. -/
inductive Stub where
  | isr (num : Nat)
  | irq (num : Nat)
  deriving DecidableEq

/-- `idt_set_entry`; an `idt_entry_t` has the fields `base_low`, `selector`, `reserved`,
`flags` and `base_high`. -/
def idtSetEntry (t : Tables) (m : Mem) (num : Nat) (base : Word) (selector : Selector)
    (flags : BitVec 8) : Mem :=
  let entry := t.idt + 8 * num
  let m := writeN m entry 2 (base &&& 0xffff).toNat
  let m := writeN m (entry + 6) 2 ((base >>> 16) &&& 0xffff).toNat
  let m := writeN m (entry + 2) 2 selector.toNat
  let m := writeN m (entry + 4) 1 0
  writeN m (entry + 5) 1 flags.toNat

/-- `idt_set_entry(from, &f0, 0x08, 0x8e)` and so on, `n` of them. -/
def idtSetEntries (t : Tables) (m : Mem) (start n : Nat) (bases : Nat → Word) : Mem :=
  (List.range n).foldl (fun m k => idtSetEntry t m (start + k) (bases k) 0x08 0x8e) m

/-- `idt_init`, with the addresses of the labels. -/
def idtInit (t : Tables) (m : Mem) (label : Stub → Word) : Mem :=
  let m := fill m t.idt 0 2048
  let m := idtSetEntries t m 0 20 fun k => label (.isr k)
  let m := idtSetEntries t m 32 16 fun k => label (.irq k)
  idtSetEntry t m 0x80 (label (.isr 128)) 0x08 0xee

/-! ## The processor -/

/-- A gate of the IDT. -/
structure Gate where
  offset : Word
  selector : Selector
  flags : BitVec 8
  deriving DecidableEq

def readGate (m : Mem) (idt vec : Nat) : Gate :=
  let a := idt + 8 * vec
  { offset := BitVec.ofNat 32 (readN m a 2 + 2 ^ 16 * readN m (a + 6) 2)
    selector := BitVec.ofNat 16 (readN m (a + 2) 2)
    flags := BitVec.ofNat 8 (readN m (a + 5) 1) }

/-- An exception with its error code, a request of the interrupt controller, or an `int`. -/
inductive Event where
  | exception (vec : Nat) (err : Option Word)
  | request (vec : Nat)
  | int (vec : Nat)

/-- Whether the processor takes a gate with these flags; an `int` needs its privilege. -/
def gateOpen (cpl : Nat) (flags : BitVec 8) (soft : Bool) : Bool :=
  flags &&& 0x0f = 0x0e && !(soft && decide (accessDpl flags < cpl)) && accessPresent flags

/-- What the processor pushes; the stack is the one of the task state segment when the
privilege changes. -/
def enter (t : Tables) (m : Mem) (c : Cpu) (g : Gate) (err : Option Word) : Word × Mem × Word :=
  let segment := readDescriptor m t.gdt (g.selector.toNat / 8)
  let tss := readDescriptor m t.gdt (SEG_TSS.toNat / 8)
  let s :=
    if accessDpl segment.access < privilege c.cs then
      pushAll (m, BitVec.ofNat 32 (read32 m (tss.base + 4)))
        [wide c.ss, c.esp, c.eflags, wide c.cs, c.eip]
    else pushAll (m, c.esp) [c.eflags, wide c.cs, c.eip]
  (g.offset, pushAll s err.toList)

/-- Where the processor goes on, and the stack; a gate that is shut is a general
protection exception with its number. -/
def deliver (t : Tables) (m : Mem) (c : Cpu) (e : Event) : Option (Word × Mem × Word) :=
  let (vec, err, soft) := match e with
    | .exception vec err => (vec, err, false)
    | .request vec => (vec, none, false)
    | .int vec => (vec, none, true)
  let cpl := privilege c.cs
  if gateOpen cpl (readGate m t.idt vec).flags soft then some (enter t m c (readGate m t.idt vec) err)
  else if gateOpen cpl (readGate m t.idt 13).flags false then
    some (enter t m c (readGate m t.idt 13) (some (BitVec.ofNat 32 (8 * vec + 2))))
  else none

/-- The exceptions that have an error code. -/
def hasError : List Nat := [8, 10, 11, 12, 13, 14, 17]

/-- What can happen to the processor while it runs `c`. -/
def Event.Possible (c : Cpu) : Event → Prop
  | .exception vec err => vec < 20 ∧ (err.isSome ↔ vec ∈ hasError)
  | .request vec => 32 ≤ vec ∧ vec < 48
  | .int vec => vec < 256 ∧ privilege c.cs = 3

/-! ## `isr_stubs.s` -/

/-- The words that a stub pushes: `ISR_NOERR`, `ISR_ERR` or `IRQ`. -/
def Stub.words : Stub → List Word
  | .isr num => if num ∈ [8, 10, 11, 12, 13, 14, 17] then [BitVec.ofNat 32 num] else [0, BitVec.ofNat 32 num]
  | .irq num => [0, BitVec.ofNat 32 (32 + num)]

/-- A stub up to the call of the handler. -/
def Stub.run (stub : Stub) (s : Mem × Word) (c : Cpu) : Mem × Word :=
  saveRegisters (pushAll s stub.words) c

/-! ## The gates -/

section

variable {t : Tables} {m : Mem} {label : Stub → Word}

theorem half_lt (w : Word) (k : Nat) : ((w >>> k) &&& 0xffff).toNat < 256 ^ 2 := low_lt (w >>> k)

theorem offset_parts (w : Word) :
    (w &&& 0xffff).toNat + 2 ^ 16 * ((w >>> 16) &&& 0xffff).toNat = w.toNat := by
  have h16 : (0xffff : Word).toNat = 2 ^ 16 - 1 := rfl
  rw [BitVec.toNat_and, BitVec.toNat_and, h16, Nat.and_two_pow_sub_one_eq_mod,
    Nat.and_two_pow_sub_one_eq_mod, BitVec.toNat_ushiftRight, Nat.shiftRight_eq_div_pow]
  have hlt := w.isLt
  omega

theorem readGate_self (num : Nat) (base : Word) (selector : Selector) (flags : BitVec 8) :
    readGate (idtSetEntry t m num base selector flags) t.idt num = ⟨base, selector, flags⟩ := by
  have hlow := low_lt base
  have hhigh := half_lt base 16
  have hselector : selector.toNat < 256 ^ 2 := selector.isLt
  have hflags : flags.toNat < 256 ^ 1 := flags.isLt
  simp only [readGate, idtSetEntry]
  simp (disch := omega) only [readN_writeN_apart, readN_writeN_self _ hlow, readN_writeN_self _ hhigh,
    readN_writeN_self _ hselector, readN_writeN_self _ hflags, offset_parts, BitVec.ofNat_toNat,
    BitVec.setWidth_eq]

theorem idtSetEntry_outside {num : Nat} {base : Word} {selector : Selector} {flags : BitVec 8} {a : Nat}
    (h : a < t.idt + 8 * num ∨ t.idt + 8 * num + 8 ≤ a) :
    idtSetEntry t m num base selector flags a = m a := by
  simp only [idtSetEntry]
  simp (disch := omega) only [writeN_outside]

theorem readGate_congr {m' : Mem} {idt vec : Nat}
    (h : ∀ a, idt + 8 * vec ≤ a → a < idt + 8 * vec + 8 → m' a = m a) :
    readGate m' idt vec = readGate m idt vec := by
  have hfield : ∀ off k, off + k ≤ 8 → readN m' (idt + 8 * vec + off) k = readN m (idt + 8 * vec + off) k :=
    fun off k hle => readN_congr fun a hlo hhi => h a (by omega) (by omega)
  have hfirst := hfield 0 2 (by decide)
  rw [Nat.add_zero] at hfirst
  simp only [readGate, hfirst, hfield 2 2 (by decide), hfield 5 1 (by decide), hfield 6 2 (by decide)]

theorem readGate_ne {num vec : Nat} (h : num ≠ vec) (base : Word) (selector : Selector)
    (flags : BitVec 8) :
    readGate (idtSetEntry t m num base selector flags) t.idt vec = readGate m t.idt vec :=
  readGate_congr fun _ hlo hhi => idtSetEntry_outside (by omega)

theorem readGate_entries (start n : Nat) (bases : Nat → Word) (vec : Nat) :
    readGate (idtSetEntries t m start n bases) t.idt vec =
      if start ≤ vec ∧ vec < start + n then ⟨bases (vec - start), 0x08, 0x8e⟩ else readGate m t.idt vec := by
  induction n with
  | zero => rw [if_neg (by omega)]; rfl
  | succ n ih =>
    rw [idtSetEntries, List.range_succ, List.foldl_append, List.foldl_cons, List.foldl_nil,
      ← idtSetEntries]
    by_cases hvec : start + n = vec
    · subst hvec
      rw [readGate_self, if_pos (by omega), Nat.add_sub_cancel_left]
    · rw [readGate_ne hvec, ih]
      by_cases hin : start ≤ vec ∧ vec < start + n
      · rw [if_pos hin, if_pos (by omega)]
      · rw [if_neg hin, if_neg (by omega)]

/-- The gates after `idt_init`. -/
def gates (label : Stub → Word) (vec : Nat) : Gate :=
  if vec = 0x80 then ⟨label (.isr 128), 0x08, 0xee⟩
  else if vec < 20 then ⟨label (.isr vec), 0x08, 0x8e⟩
  else if 32 ≤ vec ∧ vec < 48 then ⟨label (.irq (vec - 32)), 0x08, 0x8e⟩
  else ⟨0, 0, 0⟩

/-- **The IDT.** -/
theorem readGate_idtInit {vec : Nat} (h : vec < 256) :
    readGate (idtInit t m label) t.idt vec = gates label vec := by
  have hclear : readGate (fill m t.idt 0 2048) t.idt vec = ⟨0, 0, 0⟩ := by
    simp only [readGate]
    simp (disch := omega) only [readN_fill_zero]
    rfl
  rw [idtInit, gates]
  by_cases h80 : vec = 0x80
  · subst h80
    rw [if_pos rfl]
    exact readGate_self _ _ _ _
  · rw [if_neg h80, readGate_ne (Ne.symm h80), readGate_entries, readGate_entries, hclear]
    by_cases hirq : 32 ≤ vec ∧ vec < 48
    · rw [if_pos hirq, if_neg (by omega), if_pos hirq]
    · rw [if_neg hirq, if_neg hirq]
      by_cases hisr : vec < 20
      · rw [if_pos (by omega), if_pos hisr, Nat.sub_zero]
      · rw [if_neg (by omega), if_neg hisr]

/-- The tables as the kernel has set them up. -/
structure Ready (t : Tables) (label : Stub → Word) (esp0 : Word) (m : Mem) : Prop where
  gdt : GdtReady t esp0 m
  idt : ∀ vec < 256, readGate m t.idt vec = gates label vec

theorem idtInit_outside {a : Nat} (h : a < t.idt ∨ t.idt + 2048 ≤ a) : idtInit t m label a = m a := by
  have hentries : ∀ {m : Mem} {start n : Nat} {bases : Nat → Word}, start + n ≤ 256 →
      idtSetEntries t m start n bases a = m a := by
    intro m start n bases hle
    induction n with
    | zero => rfl
    | succ n ih =>
      rw [idtSetEntries, List.range_succ, List.foldl_append, List.foldl_cons, List.foldl_nil,
        ← idtSetEntries, idtSetEntry_outside (by omega), ih (by omega)]
  rw [idtInit, idtSetEntry_outside (by omega), hentries (by decide), hentries (by decide), fill_apply,
    if_neg (by omega)]

/-- `gdt_init` and `idt_init`. -/
theorem boot_ready (t : Tables) (m : Mem) (label : Stub → Word) :
    Ready t label 0 (idtInit t (gdtInit t m) label) := by
  have hgdt := t.gdt_idt
  have htss := t.tss_idt
  refine ⟨(gdtInit_ready (m := m)).congr (fun a hlo hhi => ?_) (fun a hlo hhi => ?_), fun vec h => readGate_idtInit h⟩
  · exact idtInit_outside (by omega)
  · exact idtInit_outside (by omega)

theorem Ready.setKernelStack {esp0 : Word} (h : Ready t label esp0 m) (esp0' : Word) :
    Ready t label esp0' (tssSetKernelStack t m esp0') := by
  have htss := t.tss_idt
  refine ⟨h.gdt.setKernelStack esp0', fun vec hvec => ?_⟩
  rw [← h.idt vec hvec]
  exact readGate_congr fun a hlo hhi => writeN_outside m (by omega)

/-! ## The way to the handler -/

/-- The stub that an event gets to, with the number and the error code it finds. -/
def Event.arrival : Event → Stub × Word × Word
  | .exception vec err => (.isr vec, BitVec.ofNat 32 vec, err.getD 0)
  | .request vec => (.irq (vec - 32), BitVec.ofNat 32 vec, 0)
  | .int vec =>
    if vec = 0x80 then (.isr 128, 128, 0) else (.isr 13, 13, BitVec.ofNat 32 (8 * vec + 2))

theorem gateOpen_hard (cpl : Nat) : gateOpen cpl 0x8e false = true := by
  rw [gateOpen, Bool.false_and]
  decide

/-- A user's `int` gets through a gate only when it is the one for system calls. -/
theorem gateOpen_soft (vec : Nat) : gateOpen 3 (gates label vec).flags true = decide (vec = 0x80) := by
  rw [gates]
  by_cases h80 : vec = 0x80
  · rw [if_pos h80, decide_eq_true h80]
    exact show gateOpen 3 0xee true = true by decide
  · rw [if_neg h80, decide_eq_false h80]
    have hkernel : gateOpen 3 0x8e true = false := by decide
    have habsent : gateOpen 3 0 true = false := by decide
    split
    · exact hkernel
    · split
      · exact hkernel
      · exact habsent

theorem gates_exception {vec : Nat} (h : vec < 20) : gates label vec = ⟨label (.isr vec), 0x08, 0x8e⟩ := by
  rw [gates, if_neg (by omega), if_pos h]

theorem gates_request {vec : Nat} (hlo : 32 ≤ vec) (hhi : vec < 48) :
    gates label vec = ⟨label (.irq (vec - 32)), 0x08, 0x8e⟩ := by
  rw [gates, if_neg (by omega), if_neg (by omega), if_pos ⟨hlo, hhi⟩]

/-- The stack that the processor leaves at a gate of the kernel. -/
theorem enter_kernel {esp0 : Word} (h : Ready t label esp0 m) (c : Cpu) (offset : Word) (flags : BitVec 8)
    (err : Option Word) : enter t m c ⟨offset, 0x08, flags⟩ err =
      (offset, pushAll (interrupt m c esp0) err.toList) := by
  have hcode : readDescriptor m t.gdt ((0x08 : Selector).toNat / 8) = ⟨0, 0xfffff, 0x9a, 0xc⟩ :=
    h.gdt.descriptors 1 (by decide)
  have htss : readDescriptor m t.gdt (SEG_TSS.toNat / 8) = ⟨t.tss, 103, 0x89, 0⟩ :=
    h.gdt.descriptors 5 (by decide)
  have hdpl : accessDpl 0x9a = 0 := by decide
  have hstack : BitVec.ofNat 32 (read32 m (t.tss + 4)) = esp0 := by
    rw [h.gdt.esp0, BitVec.ofNat_toNat, BitVec.setWidth_eq]
  rw [enter]
  dsimp only
  rw [hcode, htss, hdpl, hstack, interrupt]
  simp only [Nat.pos_iff_ne_zero]

/-- **The registers.**  What the processor, the stub and `isr_common` push is a `registers_t`. -/
theorem saveRegisters_eq (m : Mem) (c : Cpu) (esp0 err vec : Word) :
    saveRegisters (pushAll (interrupt m c esp0) [err, vec]) c = pushAll (m, entryEsp c esp0)
      (frame c (pushAll (interrupt m c esp0) [err, vec]).2 vec err).reverse := by
  unfold saveRegisters interrupt entryEsp frame
  split
  · simp only [pushAll, ← List.foldl_append]
    rfl
  · simp only [pushAll, ← List.foldl_append]
    rfl

/-- Where an event gets to, before the stub has run. -/
theorem deliver_arrival {esp0 : Word} (h : Ready t label esp0 m) {c : Cpu} {e : Event}
    (hpossible : e.Possible c) : ∃ s, deliver t m c e = some (label e.arrival.1, s) ∧
      e.arrival.1.run s c =
        saveRegisters (pushAll (interrupt m c esp0) [e.arrival.2.2, e.arrival.2.1]) c := by
  have hgate13 : readGate m t.idt 13 = ⟨label (.isr 13), 0x08, 0x8e⟩ := by
    rw [h.idt 13 (by decide), gates_exception (by decide)]
  cases e with
  | exception vec err =>
    obtain ⟨hvec, herr⟩ := hpossible
    refine ⟨pushAll (interrupt m c esp0) err.toList, ?_, ?_⟩
    · simp only [deliver]
      rw [h.idt vec (by omega), gates_exception hvec, if_pos (gateOpen_hard _), enter_kernel h]
      rfl
    · have hlist : hasError = [8, 10, 11, 12, 13, 14, 17] := rfl
      rw [hlist] at herr
      rw [Stub.run, Event.arrival, Stub.words]
      cases err with
      | none =>
        rw [if_neg fun hmem => absurd (herr.mpr hmem) (by simp)]
        rfl
      | some err =>
        rw [if_pos (herr.mp rfl)]
        rfl
  | request vec =>
    obtain ⟨hlo, hhi⟩ := hpossible
    refine ⟨interrupt m c esp0, ?_, ?_⟩
    · simp only [deliver]
      rw [h.idt vec (by omega), gates_request hlo hhi, if_pos (gateOpen_hard _), enter_kernel h]
      rfl
    · rw [Stub.run, Event.arrival, Stub.words, Nat.add_sub_cancel' hlo]
  | int vec =>
    obtain ⟨hvec, hc⟩ := hpossible
    by_cases h80 : vec = 0x80
    · subst h80
      refine ⟨interrupt m c esp0, ?_, rfl⟩
      simp only [deliver]
      rw [h.idt 0x80 hvec, hc, gateOpen_soft, if_pos (by decide)]
      exact congrArg some (enter_kernel h c _ _ _)
    · refine ⟨push (interrupt m c esp0) (BitVec.ofNat 32 (8 * vec + 2)), ?_, ?_⟩
      · simp only [deliver]
        rw [h.idt vec hvec, hc, gateOpen_soft, if_neg (by simpa using h80), hgate13,
          if_pos (gateOpen_hard _), enter_kernel h, Event.arrival, if_neg h80]
        rfl
      · rw [Event.arrival, if_neg h80]
        rfl

theorem Ready.arrives {esp0 : Word} (h : Ready t label esp0 m) {c : Cpu} {e : Event}
    (hpossible : e.Possible c) (hroom : frameSize c ≤ (entryEsp c esp0).toNat) :
    ∃ s regs, deliver t m c e = some (label e.arrival.1, s) ∧ e.arrival.1.run s c = regs ∧
      (∃ skipped, Stack regs.1 regs.2 (frame c skipped e.arrival.2.1 e.arrival.2.2)) ∧
      ∀ (m' : Mem) (r : Cpu), r.esp = regs.2 → privilege r.cs = 0 →
        (∀ a, regs.2.toNat ≤ a → a < regs.2.toNat + frameSize c → m' a = regs.1 a) →
        Resumed c (restore m' r) := by
  obtain ⟨s, hdeliver, hrun⟩ := deliver_arrival h hpossible
  rw [saveRegisters_eq] at hrun
  generalize hskipped : (pushAll (interrupt m c esp0) [e.arrival.2.2, e.arrival.2.1]).2 = skipped at hrun
  have hesp : privilege c.cs = 0 → c.esp = (m, entryEsp c esp0).2 := by
    intro hk
    exact (if_neg (not_not.mpr hk)).symm
  obtain ⟨hframe, hsp, -⟩ := pushed_frame skipped e.arrival.2.1 e.arrival.2.2 hroom hesp
  have hlen := frame_length c skipped e.arrival.2.1 e.arrival.2.2
  refine ⟨s, _, hdeliver, hrun, ⟨skipped, ?_⟩, fun m' r hr hcs hsame => ?_⟩
  · have hstack := stack_pushed (s := (m, entryEsp c esp0))
      (show 4 * (frame c skipped e.arrival.2.1 e.arrival.2.2).reverse.length ≤ (entryEsp c esp0).toNat by
        rw [List.length_reverse, hlen]; exact hroom)
    rwa [List.reverse_reverse] at hstack
  · have hlt := (entryEsp c esp0).isLt
    have hkept := hframe.congr (by rw [hsp]; dsimp only; omega) hsame
    exact restore_frame (by rw [hr]; exact hkept) hcs

/-- An address in one of the tables. -/
def InTables (t : Tables) (a : Nat) : Prop :=
  t.gdt ≤ a ∧ a < t.gdt + 48 ∨ t.tss ≤ a ∧ a < t.tss + 104 ∨ t.idt ≤ a ∧ a < t.idt + 2048

/-- What happens to the memory and to the kernel stack after boot: a store outside of the tables,
or a thread with another stack. -/
inductive TableStep (t : Tables) : Mem × Word → Option Word → Mem × Word → Prop
  | store {m : Mem} {esp0 : Word} {a : Nat} (b : BitVec 8) : ¬ InTables t a →
      TableStep t (m, esp0) none (write8 m a b.toNat, esp0)
  | setKernelStack {m : Mem} {esp0 : Word} (esp0' : Word) :
      TableStep t (m, esp0) (some esp0') (tssSetKernelStack t m esp0', esp0')

theorem ready_step {s s' : Mem × Word} {l : Option Word} (h : Ready t label s.2 s.1)
    (hstep : TableStep t s l s') : Ready t label s'.2 s'.1 := by
  cases hstep with
  | setKernelStack esp0' => exact h.setKernelStack esp0'
  | @store m esp0 a b houtside =>
    have hsame : ∀ x, InTables t x → write8 m a b.toNat x = m x := by
      intro x hx
      refine write8_ne _ _ ?_
      rintro rfl
      exact houtside hx
    refine ⟨h.gdt.congr (fun x hlo hhi => ?_) (fun x hlo hhi => ?_), fun vec hvec => ?_⟩
    · exact hsame x (Or.inl ⟨hlo, hhi⟩)
    · exact hsame x (Or.inr (Or.inl ⟨hlo, hhi⟩))
    · rw [← h.idt vec hvec]
      exact readGate_congr fun x hlo hhi => hsame x (Or.inr (Or.inr ⟨by omega, by omega⟩))

/-- **Interrupts.**  At any time after boot every event gets to the handler of its number, which
finds the registers in a `registers_t` on the kernel stack; when the handler leaves that
alone, the code goes on where it was. -/
theorem delivered (t : Tables) (label : Stub → Word) {m₀ m : Mem} {esp0 : Word} {ls : List (Option Word)}
    (hrun : Run (TableStep t) (idtInit t (gdtInit t m₀) label, 0) ls (m, esp0)) {c : Cpu} {e : Event}
    (hpossible : e.Possible c) (hroom : frameSize c ≤ (entryEsp c esp0).toNat) :
    ∃ s regs, deliver t m c e = some (label e.arrival.1, s) ∧ e.arrival.1.run s c = regs ∧
      (∃ skipped, Stack regs.1 regs.2 (frame c skipped e.arrival.2.1 e.arrival.2.2)) ∧
      ∀ (m' : Mem) (r : Cpu), r.esp = regs.2 → privilege r.cs = 0 →
        (∀ a, regs.2.toNat ≤ a → a < regs.2.toNat + frameSize c → m' a = regs.1 a) →
        Resumed c (restore m' r) := by
  have hready := hrun.invariant (I := fun s => Ready t label s.2 s.1)
    (fun _ _ _ h hstep => ready_step h hstep) (boot_ready t m₀ label)
  exact hready.arrives hpossible hroom

end

/-- Tables in the data of the kernel, and a user program that runs into a page fault. -/
def someTables : Tables where
  gdt := 0xc0210000
  tss := 0xc0210040
  idt := 0xc0210100
  gdt_lt := by decide
  tss_lt := by decide
  idt_lt := by decide
  gdt_tss := Or.inl (by decide)
  gdt_idt := Or.inl (by decide)
  tss_idt := Or.inl (by decide)

def someLabel : Stub → Word
  | .isr num => BitVec.ofNat 32 (0xc0100000 + 16 * num)
  | .irq num => BitVec.ofNat 32 (0xc0101000 + 16 * num)

def userCpu : Cpu := Process.uprocessCpu 0x400000 0x8000000

theorem pageFault_delivered : ∃ s regs,
    deliver someTables
      (tssSetKernelStack someTables
        (idtInit someTables (gdtInit someTables fun _ => 0) someLabel) 0xe0002000)
      userCpu (.exception 14 (some 4)) = some (0xc01000e0, s) ∧
    (Stub.isr 14).run s userCpu = regs ∧
    ∃ skipped, Stack regs.1 regs.2 (frame userCpu skipped 14 4) := by
  have hpossible : (Event.exception 14 (some 4)).Possible userCpu := ⟨by decide, by decide⟩
  have hset : Run (TableStep someTables) (idtInit someTables (gdtInit someTables fun _ => 0) someLabel, 0)
      [some 0xe0002000] _ := .single (.setKernelStack 0xe0002000)
  obtain ⟨s, regs, hdeliver, hrun, hstack, -⟩ := delivered someTables someLabel hset hpossible (by decide)
  exact ⟨s, regs, hdeliver, hrun, hstack⟩

end FrogKernel.Interrupts
