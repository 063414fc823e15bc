import Mathlib.Algebra.Group.Nat.Defs
import Mathlib.Data.Finset.Card
import Mathlib.Tactic.Common
import FrogKernel.Lib.Runs

/-!
# The physical frame allocator (`memory/pmm.c`)

One bit for each page frame: set means used.  `pmmAllocFrame` takes the lowest
free frame above frame 0, `pmmFreeFrame` gives one back.  Both end in `panic`
on some inputs; `panic` never returns and is `none` here.
-/

namespace FrogKernel.Pmm

open FrogKernel.Runs

def PAGE_SIZE : Nat := 0x1000

/-- The bitmap bytes, as `pmm_bitmap` points at them. -/
abbrev Bitmap := Nat → BitVec 8

/-- `(map)[(bit) / 8] |= (1 << ((bit) % 8))` -/
def bitSet (map : Bitmap) (bit : Nat) : Bitmap :=
  fun k => if k = bit / 8 then map k ||| (1#8 <<< (bit % 8)) else map k

/-- `(map)[(bit) / 8] &= ~(1 << ((bit) % 8))` -/
def bitClear (map : Bitmap) (bit : Nat) : Bitmap :=
  fun k => if k = bit / 8 then map k &&& ~~~(1#8 <<< (bit % 8)) else map k

/-- `(map)[(bit) / 8] & (1 << ((bit) % 8))`, as a truth value. -/
def bitTest (map : Bitmap) (bit : Nat) : Bool :=
  map (bit / 8) &&& (1#8 <<< (bit % 8)) != 0#8

/-- `total_pages` is `total_memory / PAGE_SIZE` for a 32-bit `total_memory`. -/
structure PmmState where
  totalPages : Nat
  pmmBitmap : Bitmap
  total_lt : totalPages < 2 ^ 20

def addrToPage (addr : Nat) : Nat := addr / PAGE_SIZE

def pmmIsFree (p : PmmState) (addr : Nat) : Bool := !bitTest p.pmmBitmap (addrToPage addr)

/-- The loop of `pmm_alloc_frame` from frame `i` on, with `n` frames left. -/
def pmmAllocLoop (p : PmmState) : Nat → Nat → Option (Nat × PmmState)
  | _, 0 => none
  | i, n + 1 =>
    if !bitTest p.pmmBitmap i then
      some (i * PAGE_SIZE % 2 ^ 32, { p with pmmBitmap := bitSet p.pmmBitmap i })
    else pmmAllocLoop p (i + 1) n

def pmmAllocFrame (p : PmmState) : Option (Nat × PmmState) := pmmAllocLoop p 1 (p.totalPages - 1)

def pmmFreeFrame (p : PmmState) (addr : Nat) : Option PmmState :=
  if addr = 0 then none
  else if addr &&& 0xfff ≠ 0 then none
  else if addrToPage addr ≥ p.totalPages then none
  else if bitTest p.pmmBitmap (addrToPage addr) then none
  else some { p with pmmBitmap := bitClear p.pmmBitmap (addrToPage addr) }

/-! ## The bitmap as a set of frames -/

/-- Frame `i` is free. -/
def Free (p : PmmState) (i : Nat) : Prop := bitTest p.pmmBitmap i = false

instance (p : PmmState) (i : Nat) : Decidable (Free p i) := inferInstanceAs (Decidable (_ = false))

theorem bitTest_eq_getLsbD (map : Bitmap) (i : Nat) :
    bitTest map i = (map (i / 8)).getLsbD (i % 8) := by
  have hand : map (i / 8) &&& 1#8 <<< (i % 8) =
      if (map (i / 8)).getLsbD (i % 8) then BitVec.twoPow 8 (i % 8) else 0#8 :=
    BitVec.and_twoPow (map (i / 8)) (i % 8)
  have hlt : i % 8 < 8 := Nat.mod_lt _ (by decide)
  have hne : BitVec.twoPow 8 (i % 8) ≠ 0#8 := by
    intro h
    have hbit := congrArg (·.getLsbD (i % 8)) h
    simp [hlt] at hbit
  rw [bitTest, hand]
  cases (map (i / 8)).getLsbD (i % 8) <;> simp [hne]

theorem getLsbD_bit (i j : Nat) : (1#8 <<< (i % 8)).getLsbD (j % 8) = decide (i % 8 = j % 8) := by
  have h := BitVec.getLsbD_twoPow (w := 8) (i % 8) (j % 8)
  rw [BitVec.twoPow] at h
  simpa [Nat.mod_lt] using h

@[simp] theorem bitTest_bitSet (map : Bitmap) (i j : Nat) :
    bitTest (bitSet map i) j = (decide (i = j) || bitTest map j) := by
  simp only [bitTest_eq_getLsbD, bitSet]
  by_cases hb : j / 8 = i / 8
  · have hij : i = j ↔ i % 8 = j % 8 := by omega
    rw [if_pos hb, BitVec.getLsbD_or, getLsbD_bit, Bool.or_comm]
    simp [hij]
  · have hne : i ≠ j := by omega
    simp [hb, hne]

@[simp] theorem bitTest_bitClear (map : Bitmap) (i j : Nat) :
    bitTest (bitClear map i) j = (!decide (i = j) && bitTest map j) := by
  simp only [bitTest_eq_getLsbD, bitClear]
  by_cases hb : j / 8 = i / 8
  · have hlt : j % 8 < 8 := Nat.mod_lt _ (by decide)
    have hij : i = j ↔ i % 8 = j % 8 := by omega
    rw [if_pos hb, BitVec.getLsbD_and, BitVec.getLsbD_not, getLsbD_bit, Bool.and_comm]
    simp [hij, hlt]
  · have hne : i ≠ j := by omega
    simp [hb, hne]

/-! ## What one call does -/

/-- `addr` is the frame `pmm_alloc_frame` owes its caller in `p`, and `p'` is
`p` with that frame used. -/
structure Handed (p : PmmState) (addr : Nat) (p' : PmmState) : Prop where
  nonzero : addr ≠ 0
  aligned : addr % PAGE_SIZE = 0
  below : addr < p.totalPages * PAGE_SIZE
  free : Free p (addrToPage addr)
  lowest : ∀ j, 1 ≤ j → j < addrToPage addr → ¬ Free p j
  used : ¬ Free p' (addrToPage addr)
  others : ∀ j, j ≠ addrToPage addr → (Free p' j ↔ Free p j)
  total : p'.totalPages = p.totalPages

theorem Handed.fewer {p p' : PmmState} {addr : Nat} (h : Handed p addr p') (i : Nat)
    (hi : Free p' i) : Free p i :=
  (h.others i fun heq => h.used (heq ▸ hi)).mp hi

theorem pmmAllocLoop_some {p p' : PmmState} {addr : Nat} :
    ∀ {n i : Nat}, pmmAllocLoop p i n = some (addr, p') →
      ∃ k, i ≤ k ∧ k < i + n ∧ Free p k ∧ (∀ j, i ≤ j → j < k → ¬ Free p j) ∧
        addr = k * PAGE_SIZE % 2 ^ 32 ∧ p' = { p with pmmBitmap := bitSet p.pmmBitmap k }
  | 0, i, h => by simp [pmmAllocLoop] at h
  | n + 1, i, h => by
    unfold pmmAllocLoop at h
    cases hb : bitTest p.pmmBitmap i with
    | false =>
      simp only [hb, Bool.not_false, ↓reduceIte, Option.some.injEq, Prod.mk.injEq] at h
      exact ⟨i, Nat.le_refl i, by omega, hb, fun j h1 h2 => absurd h1 (by omega), h.1.symm, h.2.symm⟩
    | true =>
      simp only [hb, Bool.not_true, Bool.false_eq_true, ↓reduceIte] at h
      obtain ⟨k, hik, hk, hfree, hlow, haddr, hp⟩ := pmmAllocLoop_some h
      refine ⟨k, by omega, by omega, hfree, fun j hj hjk => ?_, haddr, hp⟩
      by_cases hij : j = i
      · subst hij; simp [Free, hb]
      · exact hlow j (by omega) hjk

theorem pmmAllocLoop_none {p : PmmState} :
    ∀ {n i : Nat}, pmmAllocLoop p i n = none ↔ ∀ j, i ≤ j → j < i + n → ¬ Free p j
  | 0, i => by simp only [pmmAllocLoop, true_iff]; intro j h1 h2; omega
  | n + 1, i => by
    unfold pmmAllocLoop
    cases hb : bitTest p.pmmBitmap i with
    | false =>
      simp only [Bool.not_false, ↓reduceIte, reduceCtorEq, false_iff]
      intro h
      exact h i (Nat.le_refl i) (by omega) hb
    | true =>
      simp only [Bool.not_true, Bool.false_eq_true, ↓reduceIte]
      rw [pmmAllocLoop_none]
      constructor
      · intro h j hij hj
        by_cases e : j = i
        · subst e; simp [Free, hb]
        · exact h j (by omega) (by omega)
      · intro h j hij hj
        exact h j (by omega) (by omega)

/-- **Allocation.**  A call that returns hands out the lowest free frame. -/
theorem pmmAllocFrame_handed {p p' : PmmState} {addr : Nat}
    (h : pmmAllocFrame p = some (addr, p')) : Handed p addr p' := by
  obtain ⟨k, h1, hk, hfree, hlow, haddr, rfl⟩ := pmmAllocLoop_some h
  have hlt := p.total_lt
  have hmul : addr = k * PAGE_SIZE := by
    rw [haddr, PAGE_SIZE]; omega
  have hpage : addrToPage addr = k := by
    rw [hmul, addrToPage, PAGE_SIZE]; omega
  refine ⟨?_, ?_, ?_, hpage ▸ hfree, fun j hj hjk => hlow j hj (hpage ▸ hjk), ?_, ?_, rfl⟩
  · rw [hmul, PAGE_SIZE]; omega
  · rw [hmul, PAGE_SIZE]; omega
  · rw [hmul, PAGE_SIZE]; omega
  · simp [Free, hpage]
  · intro j hj
    have hkj : k ≠ j := fun e => hj (by rw [hpage, e])
    simp [Free, hkj]

/-- `panic` is reached exactly when nothing is free. -/
theorem pmmAllocFrame_none (p : PmmState) :
    pmmAllocFrame p = none ↔ ∀ i, 1 ≤ i → i < p.totalPages → ¬ Free p i := by
  rw [pmmAllocFrame, pmmAllocLoop_none]
  constructor
  · intro h i h1 hi
    exact h i h1 (by omega)
  · intro h i h1 hi
    exact h i h1 (by omega)

/-- A free that does not panic finds its frame free already and clears no
other bit. -/
theorem pmmFreeFrame_some {p p' : PmmState} {addr : Nat} (h : pmmFreeFrame p addr = some p') :
    addr ≠ 0 ∧ addr % PAGE_SIZE = 0 ∧ addrToPage addr < p.totalPages ∧
      Free p (addrToPage addr) ∧ (∀ j, Free p' j ↔ j = addrToPage addr ∨ Free p j) ∧
      p'.totalPages = p.totalPages := by
  unfold pmmFreeFrame at h
  have hmask : addr &&& 0xfff = addr % PAGE_SIZE := Nat.and_two_pow_sub_one_eq_mod addr 12
  rw [hmask] at h
  split at h
  · cases h
  split at h
  · cases h
  split at h
  · cases h
  split at h
  · cases h
  case isFalse h0 ha hr hb =>
    obtain rfl := Option.some.inj h
    refine ⟨h0, by omega, by omega, by simp [Free, hb], fun j => ?_, rfl⟩
    simp only [Free, bitTest_bitClear, Bool.and_eq_false_iff, Bool.not_eq_false',
      decide_eq_true_eq]
    exact or_congr_left eq_comm

theorem pmmFreeFrame_used {p : PmmState} {addr : Nat} (h : ¬ Free p (addrToPage addr)) :
    pmmFreeFrame p addr = none := by
  cases hfree : pmmFreeFrame p addr with
  | none => rfl
  | some p' => exact absurd (pmmFreeFrame_some hfree).2.2.2.1 h

/-! ## Enough frames -/

/-- The frames that `pmm_alloc_frame` can hand out. -/
def freeFrames (p : PmmState) : Finset Nat :=
  (Finset.range p.totalPages).filter fun i => 1 ≤ i ∧ Free p i

/-- At least `n` frames are left. -/
def Spare (n : Nat) (p : PmmState) : Prop := n ≤ (freeFrames p).card

theorem Spare.ne_none {p : PmmState} (h : Spare 1 p) : pmmAllocFrame p ≠ none := by
  intro hnone
  obtain ⟨i, hi⟩ := Finset.card_pos.mp h
  simp only [freeFrames, Finset.mem_filter, Finset.mem_range] at hi
  exact (pmmAllocFrame_none p).mp hnone i hi.2.1 hi.1 hi.2.2

theorem Spare.alloc {p p' : PmmState} {f n : Nat} (h : Spare (n + 1) p)
    (halloc : pmmAllocFrame p = some (f, p')) : Spare n p' := by
  have hh := pmmAllocFrame_handed halloc
  have herase : freeFrames p' = (freeFrames p).erase (addrToPage f) := by
    ext i
    simp only [freeFrames, Finset.mem_filter, Finset.mem_range, Finset.mem_erase, hh.total]
    constructor
    · rintro ⟨h1, h2, h3⟩
      have hne : i ≠ addrToPage f := fun heq => hh.used (heq ▸ h3)
      exact ⟨hne, h1, h2, (hh.others i hne).mp h3⟩
    · rintro ⟨hne, h1, h2, h3⟩
      exact ⟨h1, h2, (hh.others i hne).mpr h3⟩
  rw [Spare] at h ⊢
  have hpred := Finset.pred_card_le_card_erase (s := freeFrames p) (a := addrToPage f)
  rw [herase]
  omega

theorem Spare.mono {p : PmmState} {m n : Nat} (h : Spare n p) (hle : m ≤ n) : Spare m p :=
  Nat.le_trans hle h

/-! ## Runs -/

/-- A call and its address: the one returned or the one passed. -/
inductive PmmOp where
  | alloc (addr : Nat)
  | free (addr : Nat)
  deriving DecidableEq

/-- The calls that return. -/
inductive PmmStep : PmmState → PmmOp → PmmState → Prop
  | alloc {p p' : PmmState} {addr : Nat} : pmmAllocFrame p = some (addr, p') → PmmStep p (.alloc addr) p'
  | free {p p' : PmmState} {addr : Nat} : pmmFreeFrame p addr = some p' → PmmStep p (.free addr) p'

theorem pmmStep_total {p p' : PmmState} {op : PmmOp} (h : PmmStep p op p') :
    p'.totalPages = p.totalPages := by
  cases h with
  | alloc h => exact (pmmAllocFrame_handed h).total
  | free h => exact (pmmFreeFrame_some h).2.2.2.2.2

/-- A used frame stays used until it is freed. -/
theorem pmmStep_used {p p' : PmmState} {op : PmmOp} {i : Nat} (h : PmmStep p op p')
    (hi : ¬ Free p i) (hop : ∀ addr, op = .free addr → addrToPage addr ≠ i) : ¬ Free p' i := by
  cases h with
  | @alloc _ addr h =>
    have ha := pmmAllocFrame_handed h
    have hne : i ≠ addrToPage addr := fun e => hi (e ▸ ha.free)
    exact fun hf => hi ((ha.others i hne).mp hf)
  | @free _ addr h =>
    intro hf
    rcases ((pmmFreeFrame_some h).2.2.2.2.1 i).mp hf with e | hf
    · exact hop addr rfl e.symm
    · exact hi hf

theorem run_total {p p' : PmmState} {ops : List PmmOp} (h : Run PmmStep p ops p') :
    p'.totalPages = p.totalPages :=
  h.invariant (I := fun q => q.totalPages = p.totalPages)
    (fun _ _ _ hq hs => (pmmStep_total hs).trans hq) rfl

/-- Only a free of the same address makes a used frame free again. -/
theorem run_used {p p' : PmmState} {ops : List PmmOp} {addr : Nat} (h : Run PmmStep p ops p')
    (haddr : addr % PAGE_SIZE = 0) (hops : PmmOp.free addr ∉ ops)
    (hused : ¬ Free p (addrToPage addr)) : ¬ Free p' (addrToPage addr) := by
  induction h with
  | refl => exact hused
  | @step p q _ op ops hs _ ih =>
    refine ih (fun hm => hops (List.mem_cons_of_mem _ hm)) (pmmStep_used hs hused ?_)
    rintro addr' rfl hpage
    cases hs with
    | free hf =>
      have halign := (pmmFreeFrame_some hf).2.1
      have heq : addr' = addr := by
        simp only [addrToPage, PAGE_SIZE] at *
        omega
      exact hops (by simp [heq])

/-- **The frame allocator over runs.**  From any bitmap and after any calls
that returned: a frame is handed out as `Handed` says and not again before it
is freed, and `panic` is reached exactly when no frame is left. -/
theorem pmmAllocFrame_over_runs {p₀ p : PmmState} {ops : List PmmOp} (hrun : Run PmmStep p₀ ops p) :
    (∀ addr p', pmmAllocFrame p = some (addr, p') →
      Handed p addr p' ∧ addr < p₀.totalPages * PAGE_SIZE ∧
        ∀ ops' p'', Run PmmStep p' ops' p'' → PmmOp.free addr ∉ ops' →
          ∀ q, pmmAllocFrame p'' ≠ some (addr, q)) ∧
    (pmmAllocFrame p = none ↔ ∀ i, 1 ≤ i → i < p₀.totalPages → ¬ Free p i) := by
  have htotal := run_total hrun
  constructor
  · intro addr p' halloc
    have hh := pmmAllocFrame_handed halloc
    refine ⟨hh, htotal ▸ hh.below, ?_⟩
    intro ops' p'' hrun' hops' q hagain
    have hused := run_used hrun' hh.aligned hops' hh.used
    exact hused (pmmAllocFrame_handed hagain).free
  · rw [pmmAllocFrame_none, htotal]

/-- Four frames, the first two used. -/
def fourFrames : PmmState := ⟨4, fun _ => 0b0011#8, by decide⟩

theorem fourFrames_run :
    pmmAllocFrame fourFrames = some (0x2000, { fourFrames with
      pmmBitmap := bitSet fourFrames.pmmBitmap 2 }) ∧
    0x2000 < fourFrames.totalPages * PAGE_SIZE :=
  have h : pmmAllocFrame fourFrames = some (0x2000, { fourFrames with
      pmmBitmap := bitSet fourFrames.pmmBitmap 2 }) := rfl
  ⟨h, ((pmmAllocFrame_over_runs (Run.refl fourFrames)).1 _ _ h).2.1⟩

/-! ## Freeing -/

/-- What `pmm_free_frame` is for: it frees a used frame and nothing else, and does
not return for a frame that is free. -/
structure FreesUsed (p : PmmState) (addr : Nat) : Prop where
  frees : ¬ Free p (addrToPage addr) → ∃ p', pmmFreeFrame p addr = some p' ∧
    Free p' (addrToPage addr) ∧ ∀ j, j ≠ addrToPage addr → (Free p' j ↔ Free p j)
  rejects : Free p (addrToPage addr) → pmmFreeFrame p addr = none

/-- A frame address that `pmm_free_frame` accepts. -/
structure InRange (p : PmmState) (addr : Nat) : Prop where
  nonzero : addr ≠ 0
  aligned : addr % PAGE_SIZE = 0
  below : addr < p.totalPages * PAGE_SIZE

/-- Past the checks of its argument, `pmm_free_frame` returns for free frames. -/
theorem pmmFreeFrame_returns_iff {p : PmmState} {addr : Nat} (h : InRange p addr) :
    (∃ p', pmmFreeFrame p addr = some p') ↔ Free p (addrToPage addr) := by
  have hmask : addr &&& 0xfff = addr % PAGE_SIZE := Nat.and_two_pow_sub_one_eq_mod addr 12
  have hpage : addrToPage addr < p.totalPages :=
    Nat.div_lt_of_lt_mul (Nat.mul_comm p.totalPages PAGE_SIZE ▸ h.below)
  rw [pmmFreeFrame, if_neg h.nonzero, if_neg (by rw [hmask]; exact not_not.mpr h.aligned),
    if_neg (by omega), Free]
  cases bitTest p.pmmBitmap (addrToPage addr) <;> simp

/-- **`pmm_free_frame` is backwards.**  In no state does it return for a used frame,
and in every state for a free one. -/
theorem pmmFreeFrame_backwards {p : PmmState} {addr : Nat} (h : InRange p addr) :
    ¬ FreesUsed p addr := by
  intro hfrees
  have hreturns := pmmFreeFrame_returns_iff h
  by_cases hfree : Free p (addrToPage addr)
  · obtain ⟨p', hp'⟩ := hreturns.mpr hfree
    rw [hfrees.rejects hfree] at hp'
    cases hp'
  · obtain ⟨p', hp', -⟩ := hfrees.frees hfree
    exact hfree (hreturns.mp ⟨p', hp'⟩)

theorem fourFrames_backwards : ¬ FreesUsed fourFrames 0x1000 :=
  pmmFreeFrame_backwards ⟨by decide, by decide, by decide⟩

/-- The frame that was just allocated cannot be freed. -/
theorem fourFrames_freePanics :
    ∃ p, pmmAllocFrame fourFrames = some (0x2000, p) ∧ Run PmmStep fourFrames [.alloc 0x2000] p ∧
      InRange p 0x2000 ∧ ¬ Free p (addrToPage 0x2000) ∧ pmmFreeFrame p 0x2000 = none ∧
      ¬ FreesUsed p 0x2000 := by
  have halloc : pmmAllocFrame fourFrames = some (0x2000, { fourFrames with
      pmmBitmap := bitSet fourFrames.pmmBitmap 2 }) := rfl
  refine ⟨_, halloc, .step (.alloc halloc) (.refl _), ⟨by decide, by decide, by decide⟩, by decide,
    rfl, fun h => ?_⟩
  obtain ⟨p', hp', -⟩ := h.frees (by decide)
  cases hp'

end FrogKernel.Pmm
