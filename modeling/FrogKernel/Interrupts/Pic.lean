import FrogKernel.Lib.Runs
import Mathlib.Logic.Function.Basic

/-!
# The interrupt controllers (`idt/idt.c`, `idt/isr.c`)

Two 8259 controllers, the second one behind line 2 of the first.  `pic_remap`
initializes them, and `irq_handler` ends every interrupt with a command to one or to both.

Main result: `irq_refines`, over every run the controllers are a queue of the requested lines:
the first one in the order of priority is taken, its handler is called once, and nothing
stays behind that would keep a request from the processor.
-/

namespace FrogKernel.Pic

open FrogKernel.Runs

/-! ## A controller -/

/-- The word that the data port waits for. -/
inductive Phase where
  | ready
  | icw2
  | icw3
  | icw4
  deriving DecidableEq

/-- Requests, interrupts in service, masked lines, and what the initialization has set. -/
structure Chip where
  irr : BitVec 8
  isr : BitVec 8
  imr : BitVec 8
  base : BitVec 8
  cascade : BitVec 8
  autoEoi : Bool
  phase : Phase
  single : Bool
  needs4 : Bool
  deriving DecidableEq

/-- The line of the highest priority. -/
def lowest (b : BitVec 8) : Option Nat := (List.range 8).find? fun k => b.getLsbD k

namespace Chip

variable (c : Chip)

/-- A byte to the command port: `ICW1`, or the end of the interrupt in service. -/
def writeCommand (v : BitVec 8) : Chip :=
  if v.getLsbD 4 then
    { c with irr := 0, imr := 0, phase := .icw2, single := v.getLsbD 1, needs4 := v.getLsbD 0 }
  else if v = 0x20 then
    match lowest c.isr with
    | some k => { c with isr := c.isr &&& ~~~BitVec.twoPow 8 k }
    | none => c
  else c

/-- A byte to the data port. -/
def writeData (v : BitVec 8) : Chip :=
  let last : Phase := if c.needs4 then .icw4 else .ready
  match c.phase with
  | .ready => { c with imr := v }
  | .icw2 => { c with base := v &&& 0xf8, phase := if c.single then last else .icw3 }
  | .icw3 => { c with cascade := v, phase := last }
  | .icw4 => { c with autoEoi := v.getLsbD 1, phase := .ready }

/-- The request that gets through, out of those on the lines. -/
def request (lines : BitVec 8) : Option Nat :=
  match lowest (lines &&& ~~~c.imr), lowest c.isr with
  | some k, some s => if k < s then some k else none
  | some k, none => some k
  | none, _ => none

/-- The processor takes a request. -/
def acknowledge (k : Nat) : Chip :=
  { c with
    irr := c.irr &&& ~~~BitVec.twoPow 8 k
    isr := if c.autoEoi then c.isr else c.isr ||| BitVec.twoPow 8 k }

def raise (k : Nat) : Chip := { c with irr := c.irr ||| BitVec.twoPow 8 k }

end Chip

/-! ## The two of them -/

structure Pics where
  master : Chip
  slave : Chip
  deriving DecidableEq

namespace Pics

variable (p : Pics)

def slaveRequest : Option Nat := p.slave.request p.slave.irr

/-- The slave is on line 2. -/
def lines : BitVec 8 := p.master.irr ||| if p.slaveRequest.isSome then BitVec.twoPow 8 2 else 0

/-- The processor asks for a vector. -/
def inta : Option (Nat × Pics) :=
  match p.master.request p.lines with
  | none => none
  | some k =>
    if p.master.cascade.getLsbD k then
      match p.slaveRequest with
      | some j =>
        if p.slave.cascade.toNat = k then
          some (p.slave.base.toNat + j,
            { master := p.master.acknowledge k, slave := p.slave.acknowledge j })
        else none
      | none => none
    else some (p.master.base.toNat + k, { p with master := p.master.acknowledge k })

/-- A device asks for an interrupt on one of the lines 0 to 15. -/
def raise (k : Nat) : Pics :=
  if k < 8 then { p with master := p.master.raise k } else { p with slave := p.slave.raise (k - 8) }

def outb (port v : BitVec 8) : Pics :=
  if port = 0x20 then { p with master := p.master.writeCommand v }
  else if port = 0x21 then { p with master := p.master.writeData v }
  else if port = 0xa0 then { p with slave := p.slave.writeCommand v }
  else if port = 0xa1 then { p with slave := p.slave.writeData v }
  else p

/-- A line is requested. -/
def pending (k : Nat) : Bool :=
  if k < 8 then p.master.irr.getLsbD k else p.slave.irr.getLsbD (k - 8)

end Pics

/-! ## The code -/

def PIC1_CMD : BitVec 8 := 0x20
def PIC1_DATA : BitVec 8 := 0x21
def PIC2_CMD : BitVec 8 := 0xa0
def PIC2_DATA : BitVec 8 := 0xa1

/-- `pic_remap` -/
def picRemap (p : Pics) : Pics :=
  let p := (p.outb PIC1_CMD 0x11).outb PIC2_CMD 0x11
  let p := (p.outb PIC1_DATA 0x20).outb PIC2_DATA 0x28
  let p := (p.outb PIC1_DATA 0x04).outb PIC2_DATA 0x02
  let p := (p.outb PIC1_DATA 0x01).outb PIC2_DATA 0x01
  (p.outb PIC1_DATA 0x00).outb PIC2_DATA 0x00

/-- The index into `irq_handlers` in `irq_handler`. -/
def irqIndex (intNum : Nat) : Nat := (intNum - 32) % 256

/-- `irq_handler` after the call. -/
def irqEnd (intNum : Nat) (p : Pics) : Pics :=
  let p := if intNum ≥ 40 then p.outb 0xa0 0x20 else p
  p.outb 0x20 0x20

/-! ## The system -/

/-- Where the processor is: in code with or without interrupts, in `irq_handler` before and
after the call, or between `irq_handler` and the `iret`. -/
inductive Mode where
  | on
  | off
  | taken (intNum : Nat)
  | called (intNum : Nat)
  | leaving
  deriving DecidableEq

inductive IrqEvent where
  | raise (k : Nat)
  | accept (intNum : Nat)
  | call (index : Nat)
  | eoi
  | iret
  | cli
  | sti

/-- Devices ask at any time; the rest happens one after the other. -/
inductive IrqStep : Pics × Mode → IrqEvent → Pics × Mode → Prop
  | raise {p : Pics} {mode : Mode} {k : Nat} : k < 16 → k ≠ 2 →
      IrqStep (p, mode) (.raise k) (p.raise k, mode)
  | accept {p p' : Pics} {intNum : Nat} : p.inta = some (intNum, p') →
      IrqStep (p, .on) (.accept intNum) (p', .taken intNum)
  | call {p : Pics} {intNum : Nat} :
      IrqStep (p, .taken intNum) (.call (irqIndex intNum)) (p, .called intNum)
  | eoi {p : Pics} {intNum : Nat} : IrqStep (p, .called intNum) .eoi (irqEnd intNum p, .leaving)
  | iret {p : Pics} : IrqStep (p, .leaving) .iret (p, .on)
  | cli {p : Pics} : IrqStep (p, .on) .cli (p, .off)
  | sti {p : Pics} : IrqStep (p, .off) .sti (p, .on)

/-! ## The queue -/

/-- The lines in the order of priority. -/
def order : List Nat := [0, 1] ++ (List.range 8).map (8 + ·) ++ [3, 4, 5, 6, 7]

inductive Service where
  | idle
  | taken (k : Nat)
  | called (k : Nat)

/-- The requested lines, and the one that is being served. -/
structure Queue where
  pending : Nat → Bool
  service : Service

inductive QueueStep : Queue → IrqEvent → Queue → Prop
  | raise (q : Queue) (k : Nat) :
      QueueStep q (.raise k) { q with pending := Function.update q.pending k true }
  | accept {f : Nat → Bool} {k : Nat} : order.find? f = some k →
      QueueStep ⟨f, .idle⟩ (.accept (32 + k)) ⟨Function.update f k false, .taken k⟩
  | call (f : Nat → Bool) (k : Nat) : QueueStep ⟨f, .taken k⟩ (.call k) ⟨f, .called k⟩
  | eoi (f : Nat → Bool) (k : Nat) : QueueStep ⟨f, .called k⟩ .eoi ⟨f, .idle⟩
  | iret (f : Nat → Bool) : QueueStep ⟨f, .idle⟩ .iret ⟨f, .idle⟩
  | cli (f : Nat → Bool) : QueueStep ⟨f, .idle⟩ .cli ⟨f, .idle⟩
  | sti (f : Nat → Bool) : QueueStep ⟨f, .idle⟩ .sti ⟨f, .idle⟩

/-! ## Bits -/

theorem getLsbD_set (b : BitVec 8) {k : Nat} (hk : k < 8) (j : Nat) :
    (b ||| BitVec.twoPow 8 k).getLsbD j = (b.getLsbD j || decide (j = k)) := by
  rw [BitVec.getLsbD_or, BitVec.getLsbD_twoPow]
  simp [hk, eq_comm]

theorem getLsbD_clear (b : BitVec 8) {k : Nat} (hk : k < 8) (j : Nat) :
    (b &&& ~~~BitVec.twoPow 8 k).getLsbD j = (b.getLsbD j && !decide (j = k)) := by
  rw [BitVec.getLsbD_and, BitVec.getLsbD_not, BitVec.getLsbD_twoPow]
  by_cases hj : j < 8
  · simp [hk, hj, eq_comm]
  · have hout : b.getLsbD j = false := BitVec.getLsbD_of_ge b j (by omega)
    simp [hout]

theorem lowest_twoPow : ∀ k < 8, lowest (BitVec.twoPow 8 k) = some k := by decide

theorem clear_twoPow : ∀ k < 8, BitVec.twoPow 8 k &&& ~~~BitVec.twoPow 8 k = 0 := by decide

theorem lowest_zero : lowest 0 = none := by decide

/-- The lines of the master, with the slave between the lines 1 and 3. -/
theorem lowest_lines : ∀ (b : BitVec 8) (s : Bool), b.getLsbD 2 = false →
    lowest (b ||| if s then BitVec.twoPow 8 2 else 0) =
      ([0, 1].find? fun k => b.getLsbD k).or
        ((if s then some 2 else none).or ([3, 4, 5, 6, 7].find? fun k => b.getLsbD k)) := by
  decide +kernel

/-! ## What the controllers keep -/

/-- A controller after the initialization, with nothing masked. -/
structure Configured (c : Chip) (base cascade : BitVec 8) : Prop where
  imr : c.imr = 0
  base : c.base = base
  cascade : c.cascade = cascade
  autoEoi : c.autoEoi = false
  phase : c.phase = .ready

def Mode.line : Mode → Option Nat
  | .taken intNum => some (intNum - 32)
  | .called intNum => some (intNum - 32)
  | .on | .off | .leaving => none

/-- What is in service in the two controllers while a line is served. -/
def masterIsr : Option Nat → BitVec 8
  | none => 0
  | some k => BitVec.twoPow 8 (if k < 8 then k else 2)

def slaveIsr : Option Nat → BitVec 8
  | none => 0
  | some k => if k < 8 then 0 else BitVec.twoPow 8 (k - 8)

structure Inv (p : Pics) (line : Option Nat) : Prop where
  master : Configured p.master 0x20 0x04
  slave : Configured p.slave 0x28 0x02
  line2 : p.master.irr.getLsbD 2 = false
  masterIsr : p.master.isr = masterIsr line
  slaveIsr : p.slave.isr = slaveIsr line

/-- The controllers when the processor has taken line `k`. -/
def Pics.take (p : Pics) (k : Nat) : Pics :=
  if k < 8 then { p with master := p.master.acknowledge k }
  else { master := p.master.acknowledge 2, slave := p.slave.acknowledge (k - 8) }

theorem mem_order {k : Nat} (h : k ∈ order) : k < 16 ∧ k ≠ 2 := by
  revert h
  revert k
  decide

section

variable {p : Pics}

theorem request_quiet {c : Chip} (hisr : c.isr = 0) (himr : c.imr = 0) (b : BitVec 8) :
    c.request b = lowest b := by
  have hones : ~~~(0 : BitVec 8) = BitVec.allOnes 8 := by decide
  have hall : b &&& ~~~(0 : BitVec 8) = b := by rw [hones, BitVec.and_allOnes]
  rw [Chip.request, hisr, himr, lowest_zero, hall]
  cases lowest b <;> rfl

/-- The line that is first in the order, by controllers. -/
theorem order_find (p : Pics) : order.find? p.pending =
    ([0, 1].find? fun k => p.master.irr.getLsbD k).or
      (((lowest p.slave.irr).map (8 + ·)).or ([3, 4, 5, 6, 7].find? fun k => p.master.irr.getLsbD k)) := by
  have hmaster : ∀ k < 8, p.pending k = p.master.irr.getLsbD k := fun k hk => if_pos hk
  have hslave : (p.pending ∘ fun k => 8 + k) = fun k => p.slave.irr.getLsbD k := by
    funext k
    rw [Function.comp, Pics.pending, if_neg (by omega), Nat.add_sub_cancel_left]
  have hfirst : [0, 1].find? p.pending = [0, 1].find? fun k => p.master.irr.getLsbD k := by
    simp only [List.find?, hmaster 0 (by decide), hmaster 1 (by decide)]
  have hlast : [3, 4, 5, 6, 7].find? p.pending = [3, 4, 5, 6, 7].find? fun k => p.master.irr.getLsbD k := by
    simp only [List.find?, hmaster 3 (by decide), hmaster 4 (by decide), hmaster 5 (by decide),
      hmaster 6 (by decide), hmaster 7 (by decide)]
  rw [order, List.append_assoc, List.find?_append, List.find?_append, hfirst, hlast, List.find?_map, hslave]
  rfl

/-- **Taking a request.**  Out of service the controllers hand out the first line. -/
theorem inta_quiet (h : Inv p none) :
    p.inta = (order.find? p.pending).map fun k => (32 + k, p.take k) := by
  have hslave : p.slaveRequest = lowest p.slave.irr := request_quiet h.slaveIsr h.slave.imr _
  have hmaster : p.master.request p.lines = lowest p.lines := request_quiet h.masterIsr h.master.imr _
  rw [Pics.inta, hmaster, Pics.lines, hslave, lowest_lines _ _ h.line2, order_find, h.master.cascade,
    h.master.base, h.slave.cascade, h.slave.base]
  cases hfirst : [0, 1].find? fun k => p.master.irr.getLsbD k with
  | some k =>
    have hk : k = 0 ∨ k = 1 := by simpa using List.mem_of_find?_eq_some hfirst
    rcases hk with rfl | rfl <;> rfl
  | none =>
    cases hj : lowest p.slave.irr with
    | some j =>
      have hout : p.take (8 + j) =
          { master := p.master.acknowledge 2, slave := p.slave.acknowledge j } := by
        rw [Pics.take, if_neg (by omega), Nat.add_sub_cancel_left]
      simp only [Option.none_or, Option.map_some, Option.some_or, hout]
      rw [show 32 + (8 + j) = (0x28 : BitVec 8).toNat + j by rw [← Nat.add_assoc]; rfl]
      rfl
    | none =>
      cases hlast : [3, 4, 5, 6, 7].find? fun k => p.master.irr.getLsbD k with
      | none => rfl
      | some k =>
        have hk : k = 3 ∨ k = 4 ∨ k = 5 ∨ k = 6 ∨ k = 7 := by
          simpa using List.mem_of_find?_eq_some hlast
        rcases hk with rfl | rfl | rfl | rfl | rfl <;> rfl

theorem acknowledge_configured {c : Chip} {base cascade : BitVec 8} (h : Configured c base cascade) (k : Nat) :
    Configured (c.acknowledge k) base cascade :=
  ⟨h.imr, h.base, h.cascade, h.autoEoi, h.phase⟩

theorem acknowledge_isr {c : Chip} {base cascade : BitVec 8} (h : Configured c base cascade)
    (hisr : c.isr = 0) (k : Nat) : (c.acknowledge k).isr = BitVec.twoPow 8 k := by
  rw [Chip.acknowledge, h.autoEoi, hisr]
  simp

theorem inv_take (h : Inv p none) (k : Nat) : Inv (p.take k) (some k) := by
  have hline2 : ∀ k < 8, (p.master.acknowledge k).irr.getLsbD 2 = false := by
    intro k hk
    rw [Chip.acknowledge]
    dsimp only
    rw [getLsbD_clear _ hk, h.line2, Bool.false_and]
  rw [Pics.take]
  split
  case isTrue hlow =>
    refine ⟨acknowledge_configured h.master k, h.slave, hline2 k hlow, ?_, ?_⟩
    · rw [acknowledge_isr h.master h.masterIsr, masterIsr, if_pos hlow]
    · rw [slaveIsr, if_pos hlow]
      exact h.slaveIsr
  case isFalse hhigh =>
    refine ⟨acknowledge_configured h.master 2, acknowledge_configured h.slave _, hline2 2 (by decide), ?_, ?_⟩
    · rw [acknowledge_isr h.master h.masterIsr, masterIsr, if_neg hhigh]
    · rw [acknowledge_isr h.slave h.slaveIsr, slaveIsr, if_neg hhigh]

theorem pending_take (h : Inv p none) {k : Nat} (hk : k < 16) :
    (p.take k).pending = Function.update p.pending k false := by
  funext j
  rw [Pics.take, Function.update_apply, Pics.pending, Pics.pending]
  by_cases hlow : k < 8
  · rw [if_pos hlow]
    by_cases hj : j < 8
    · rw [if_pos hj, if_pos hj, Chip.acknowledge]
      dsimp only
      rw [getLsbD_clear _ hlow]
      by_cases hjk : j = k <;> simp [hjk]
    · rw [if_neg hj, if_neg hj, if_neg (by omega)]
  · rw [if_neg hlow]
    by_cases hj : j < 8
    · rw [if_pos hj, if_pos hj, if_neg (by omega), Chip.acknowledge]
      dsimp only
      rw [getLsbD_clear _ (by decide)]
      -- line 2 is not a request of its own
      by_cases hj2 : j = 2
      · rw [hj2, h.line2, Bool.false_and]
      · rw [decide_eq_false hj2, Bool.not_false, Bool.and_true]
    · rw [if_neg hj, if_neg hj]
      change (p.slave.irr &&& ~~~BitVec.twoPow 8 (k - 8)).getLsbD (j - 8) = _
      rw [getLsbD_clear _ (by omega)]
      by_cases hjk : j = k
      · simp [hjk]
      · rw [if_neg hjk, decide_eq_false (by omega), Bool.not_false, Bool.and_true]

theorem pending_raise {k : Nat} (hk : k < 16) :
    (p.raise k).pending = Function.update p.pending k true := by
  funext j
  rw [Pics.raise, Function.update_apply, Pics.pending, Pics.pending]
  by_cases hlow : k < 8
  · rw [if_pos hlow]
    by_cases hj : j < 8
    · rw [if_pos hj, if_pos hj, Chip.raise]
      dsimp only
      rw [getLsbD_set _ hlow]
      by_cases hjk : j = k <;> simp [hjk]
    · rw [if_neg hj, if_neg hj, if_neg (by omega)]
  · rw [if_neg hlow]
    by_cases hj : j < 8
    · rw [if_pos hj, if_pos hj, if_neg (by omega)]
    · rw [if_neg hj, if_neg hj, Chip.raise]
      dsimp only
      rw [getLsbD_set _ (by omega)]
      by_cases hjk : j = k
      · simp [hjk]
      · rw [if_neg hjk, decide_eq_false (by omega), Bool.or_false]

theorem inv_raise {line : Option Nat} (h : Inv p line) {k : Nat} (hk : k ≠ 2) : Inv (p.raise k) line := by
  rw [Pics.raise]
  split
  case isTrue hlow =>
    refine ⟨⟨h.master.imr, h.master.base, h.master.cascade, h.master.autoEoi, h.master.phase⟩, h.slave, ?_,
      h.masterIsr, h.slaveIsr⟩
    simp only [Chip.raise]
    rw [getLsbD_set _ hlow, h.line2, Bool.false_or]
    exact decide_eq_false (Ne.symm hk)
  case isFalse =>
    exact ⟨h.master, ⟨h.slave.imr, h.slave.base, h.slave.cascade, h.slave.autoEoi, h.slave.phase⟩, h.line2,
      h.masterIsr, h.slaveIsr⟩

/-! ## The end of an interrupt -/

/-- The command ends the interrupt in service. -/
theorem writeCommand_eoi {c : Chip} {k : Nat} (hk : k < 8) (h : c.isr = BitVec.twoPow 8 k) :
    c.writeCommand 0x20 = { c with isr := 0 } := by
  rw [Chip.writeCommand, if_neg (by decide), if_pos rfl, h, lowest_twoPow k hk]
  dsimp only
  rw [clear_twoPow k hk]

theorem outb_master (p : Pics) : p.outb 0x20 0x20 = { p with master := p.master.writeCommand 0x20 } := rfl

theorem outb_slave (p : Pics) : p.outb 0xa0 0x20 = { p with slave := p.slave.writeCommand 0x20 } := rfl

/-- What `irq_handler` writes ends the service, in both controllers. -/
theorem irqEnd_eq {k : Nat} (h : Inv p (some k)) (hk : k < 16) :
    irqEnd (32 + k) p = { master := { p.master with isr := 0 }, slave := { p.slave with isr := 0 } } := by
  have hmaster := h.masterIsr
  have hslave := h.slaveIsr
  rw [masterIsr] at hmaster
  rw [slaveIsr] at hslave
  rw [irqEnd]
  by_cases hlow : k < 8
  · rw [if_pos hlow] at hmaster hslave
    rw [if_neg (by omega), outb_master, writeCommand_eoi hlow hmaster]
    dsimp only
    rw [← hslave]
  · rw [if_neg hlow] at hmaster hslave
    rw [if_pos (by omega), outb_slave, outb_master, writeCommand_eoi (by omega) hslave,
      writeCommand_eoi (by decide) hmaster]

theorem inv_end {k : Nat} (h : Inv p (some k)) (hk : k < 16) : Inv (irqEnd (32 + k) p) none := by
  rw [irqEnd_eq h hk]
  exact ⟨⟨h.master.imr, h.master.base, h.master.cascade, h.master.autoEoi, h.master.phase⟩,
    ⟨h.slave.imr, h.slave.base, h.slave.cascade, h.slave.autoEoi, h.slave.phase⟩, h.line2, rfl, rfl⟩

theorem pending_end {k : Nat} (h : Inv p (some k)) (hk : k < 16) :
    (irqEnd (32 + k) p).pending = p.pending := by
  rw [irqEnd_eq h hk]
  rfl

/-! ## Initialization -/

/-- `pic_remap` on controllers with nothing in service. -/
theorem picRemap_inv (hmaster : p.master.isr = 0) (hslave : p.slave.isr = 0) : Inv (picRemap p) none := by
  have hirr : (picRemap p).master.irr = 0 := rfl
  refine ⟨⟨rfl, rfl, rfl, rfl, rfl⟩, ⟨rfl, rfl, rfl, rfl, rfl⟩, ?_, hmaster, hslave⟩
  rw [hirr]
  decide

theorem picRemap_pending (k : Nat) : (picRemap p).pending k = false := by
  rw [Pics.pending]
  have hmaster : (picRemap p).master.irr = 0 := rfl
  have hslave : (picRemap p).slave.irr = 0 := rfl
  rw [hmaster, hslave]
  simp

/-! ## Runs -/

/-- The service that a mode belongs to. -/
def Mode.service : Mode → Service
  | .taken intNum => .taken (intNum - 32)
  | .called intNum => .called (intNum - 32)
  | .on | .off | .leaving => .idle

/-- The controllers show the queue. -/
structure Shows (s : Pics × Mode) (q : Queue) : Prop where
  inv : Inv s.1 s.2.line
  pending : s.1.pending = q.pending
  service : s.2.service = q.service
  vector : ∀ intNum, s.2 = .taken intNum ∨ s.2 = .called intNum → ∃ k < 16, intNum = 32 + k

/-- **One step.** -/
theorem shows_step {s t : Pics × Mode} {q : Queue} {e : IrqEvent} (h : Shows s q)
    (hstep : IrqStep s e t) : ∃ q', QueueStep q e q' ∧ Shows t q' := by
  obtain ⟨pending, service⟩ := q
  obtain ⟨hinv, hpending, hservice, hvector⟩ := h
  dsimp only at hpending hservice
  subst hpending hservice
  cases hstep with
  | raise hk h2 =>
    exact ⟨_, .raise _ _, inv_raise hinv h2, pending_raise hk, rfl, hvector⟩
  | @accept p p' intNum hinta =>
    rw [inta_quiet hinv] at hinta
    cases hfind : order.find? p.pending with
    | none =>
      rw [hfind] at hinta
      cases hinta
    | some k =>
      rw [hfind] at hinta
      obtain ⟨rfl, rfl⟩ := Prod.mk.inj (Option.some.inj hinta)
      have hk := (mem_order (List.mem_of_find?_eq_some hfind)).1
      have hline : 32 + k - 32 = k := Nat.add_sub_cancel_left 32 k
      refine ⟨_, .accept hfind, ?_, pending_take hinv hk, ?_, ?_⟩
      · rw [Mode.line, hline]
        exact inv_take hinv k
      · rw [Mode.service, hline]
      · intro n hn
        rcases hn with hn | hn
        · exact ⟨k, hk, (Mode.taken.inj hn).symm⟩
        · cases hn
  | @call p intNum =>
    obtain ⟨k, hk, rfl⟩ := hvector intNum (Or.inl rfl)
    have hindex : irqIndex (32 + k) = k := by
      rw [irqIndex, Nat.add_sub_cancel_left]
      exact Nat.mod_eq_of_lt (by omega)
    rw [hindex, Mode.service, Nat.add_sub_cancel_left]
    refine ⟨_, .call _ k, hinv, rfl, ?_, ?_⟩
    · rw [Mode.service, Nat.add_sub_cancel_left]
    · intro n hn
      rcases hn with hn | hn
      · cases hn
      · exact ⟨k, hk, (Mode.called.inj hn).symm⟩
  | @eoi p intNum =>
    obtain ⟨k, hk, rfl⟩ := hvector intNum (Or.inr rfl)
    rw [Mode.line, Nat.add_sub_cancel_left] at hinv
    rw [Mode.service, Nat.add_sub_cancel_left]
    exact ⟨_, .eoi _ k, inv_end hinv hk, pending_end hinv hk, rfl, fun n hn => by rcases hn with hn | hn <;> cases hn⟩
  | iret => exact ⟨_, .iret _, hinv, rfl, rfl, fun n hn => by rcases hn with hn | hn <;> cases hn⟩
  | cli => exact ⟨_, .cli _, hinv, rfl, rfl, fun n hn => by rcases hn with hn | hn <;> cases hn⟩
  | sti => exact ⟨_, .sti _, hinv, rfl, rfl, fun n hn => by rcases hn with hn | hn <;> cases hn⟩

/-- **Interrupt requests.**  From `pic_remap` on every run is one of the queue, and whenever the
processor is out of `irq_handler` with interrupts on, it is asked for the first requested line. -/
theorem irq_refines (hmaster : p.master.isr = 0) (hslave : p.slave.isr = 0) {s : Pics × Mode}
    {es : List IrqEvent} (hrun : Run IrqStep (picRemap p, .off) es s) :
    ∃ q, Run QueueStep ⟨fun _ => false, .idle⟩ es q ∧ s.1.pending = q.pending ∧
      (s.2 = .on → ∀ k, order.find? q.pending = some k → ∃ p', s.1.inta = some (32 + k, p')) := by
  have hstart : Shows (picRemap p, .off) ⟨fun _ => false, .idle⟩ := by
    refine ⟨picRemap_inv hmaster hslave, funext fun k => picRemap_pending k, rfl, fun n hn => ?_⟩
    rcases hn with hn | hn <;> cases hn
  obtain ⟨q, hqueue, hshows⟩ := Run.simulates (R := IrqStep) (Q := QueueStep) Shows
    (fun _ _ _ _ h hstep => shows_step h hstep) hrun hstart
  refine ⟨q, hqueue, hshows.pending, fun hon k hk => ?_⟩
  have hinv := hshows.inv
  rw [hon] at hinv
  rw [inta_quiet hinv, hshows.pending, hk]
  exact ⟨_, rfl⟩

end

/-- Controllers as the firmware leaves them, with the timer on vector 8. -/
def firmwarePics : Pics where
  master := ⟨0x01, 0, 0xb8, 0x08, 0x04, false, .ready, false, true⟩
  slave := ⟨0, 0, 0x8f, 0x70, 0x02, false, .ready, false, true⟩

/-- The mouse and the keyboard ask before interrupts are on. -/
def keyboardServed : Pics :=
  irqEnd 33 ((((picRemap firmwarePics).raise 12).raise 1).take 1)

theorem keyboardServed_run : Run IrqStep (picRemap firmwarePics, .off)
    [.raise 12, .raise 1, .sti, .accept 33, .call 1, .eoi, .iret] (keyboardServed, .on) :=
  .step (.raise (by decide) (by decide)) (.step (.raise (by decide) (by decide)) (.step .sti
    (.step (.accept rfl) (.step .call (.step .eoi (.single .iret))))))

theorem firmwarePics_served : ∃ q, Run QueueStep ⟨fun _ => false, .idle⟩
    [.raise 12, .raise 1, .sti, .accept 33, .call 1, .eoi, .iret] q ∧
    ∃ p, keyboardServed.inta = some (44, p) := by
  obtain ⟨q, hqueue, hpending, hnext⟩ := irq_refines rfl rfl keyboardServed_run
  refine ⟨q, hqueue, hnext rfl 12 ?_⟩
  rw [← hpending]
  decide

end FrogKernel.Pic
