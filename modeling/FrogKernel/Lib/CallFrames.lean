import FrogKernel.Lib.Runs
import FrogKernel.Lib.Stacks

/-!
# Frames of calls

A function with a frame pointer starts by pushing the frame pointer of its caller, right
below its return address, and points the frame pointer there.  `Chain` is the list of
frames that a frame pointer leads to.

* `CallStep`: calls, returns, moves of the stack pointer, and stores that leave the saved
  words alone;
* `frames_run`: over every run the frame pointer leads to the frames of the calls that
  have not returned.
-/

namespace FrogKernel.CallFrames

open FrogKernel.Bytes FrogKernel.Runs FrogKernel.Stacks

/-- Where the frame pointer of the caller is saved, and the return address above it. -/
structure Frame where
  base : Word
  ret : Word

/-- The frames from a frame pointer on, the innermost first.  `bottom` is the frame
pointer of the code that has no frame here. -/
def Chain (m : Mem) (bottom : Word) : Word → List Frame → Prop
  | ebp, [] => ebp = bottom
  | ebp, f :: fs => ebp = f.base ∧ peek m (f.base + 4) = f.ret ∧ Chain m bottom (peek m f.base) fs

/-- The frames lie one above the other between two addresses. -/
def Within : Nat → List Frame → Nat → Prop
  | lo, [], hi => lo ≤ hi
  | lo, f :: fs, hi => lo ≤ f.base.toNat ∧ Within (f.base.toNat + 8) fs hi

/-- A byte of a saved word. -/
def Frame.Saves (f : Frame) (a : Nat) : Prop := f.base.toNat ≤ a ∧ a < f.base.toNat + 8

structure CallState where
  mem : Mem
  esp : Word
  ebp : Word

/-- What a function does with the stack: it calls another one with a return address,
returns, moves the stack pointer below its frame, or stores a byte. -/
inductive CallEvent where
  | call (ret : Word)
  | leave
  | move (esp : Word)
  | store (a : Nat) (b : BitVec 8)

/-- A call and the first two instructions of the function. -/
def CallState.enter (s : CallState) (ret : Word) : CallState where
  mem := (pushAll (s.mem, s.esp) [ret, s.ebp]).1
  esp := s.esp - 8
  ebp := s.esp - 8

/-- The last two instructions of a function. -/
def CallState.leave (s : CallState) : CallState :=
  { s with esp := s.ebp + 8, ebp := peek s.mem s.ebp }

/-- The stack between `limit` and `top`, with the frames of the calls that have not
returned.  Nobody stores to the bytes in `Kept`. -/
inductive CallStep (Kept : Nat → Prop) (limit top : Nat) :
    CallState × List Frame → CallEvent → CallState × List Frame → Prop
  | call {s : CallState} {fs : List Frame} {ret : Word} : limit + 8 ≤ s.esp.toNat →
      CallStep Kept limit top (s, fs) (.call ret) (s.enter ret, ⟨s.esp - 8, ret⟩ :: fs)
  | leave {s : CallState} {f : Frame} {fs : List Frame} :
      CallStep Kept limit top (s, f :: fs) .leave (s.leave, fs)
  | move {s : CallState} {fs : List Frame} {esp : Word} : limit ≤ esp.toNat →
      Within esp.toNat fs top → CallStep Kept limit top (s, fs) (.move esp) ({ s with esp }, fs)
  | store {s : CallState} {fs : List Frame} {a : Nat} {b : BitVec 8} : (∀ f ∈ fs, ¬ f.Saves a) →
      ¬ Kept a →
      CallStep Kept limit top (s, fs) (.store a b) ({ s with mem := write8 s.mem a b.toNat }, fs)

/-- The frames are where the frame pointer leads, and the kept bytes are as in `m`. -/
structure Framed (Kept : Nat → Prop) (m : Mem) (bottom : Word) (limit top : Nat)
    (s : CallState × List Frame) : Prop where
  chain : Chain s.1.mem bottom s.1.ebp s.2
  within : Within s.1.esp.toNat s.2 top
  limit_le : limit ≤ s.1.esp.toNat
  kept : ∀ a, Kept a → s.1.mem a = m a

theorem Within.le {lo hi : Nat} {fs : List Frame} (h : Within lo fs hi) : lo ≤ hi := by
  induction fs generalizing lo with
  | nil => exact h
  | cons f fs ih =>
    have hle := ih h.2
    have hlo := h.1
    omega

theorem Within.mono {lo lo' hi : Nat} {fs : List Frame} (h : Within lo fs hi) (hle : lo' ≤ lo) :
    Within lo' fs hi := by
  cases fs with
  | nil => exact Nat.le_trans hle h
  | cons f fs => exact ⟨Nat.le_trans hle h.1, h.2⟩

/-- Every frame is above the lower end. -/
theorem Within.base_le {lo hi : Nat} {fs : List Frame} (h : Within lo fs hi) {f : Frame}
    (hf : f ∈ fs) : lo ≤ f.base.toNat ∧ f.base.toNat + 8 ≤ hi := by
  induction fs generalizing lo with
  | nil => cases hf
  | cons g fs ih =>
    rcases List.mem_cons.mp hf with rfl | hf
    · exact ⟨h.1, h.2.le⟩
    · have hbase := ih h.2 hf
      have hlo := h.1
      omega

theorem add_four {w : Word} (h : w.toNat + 8 < 2 ^ 32) : (w + 4).toNat = w.toNat + 4 := by
  rw [BitVec.toNat_add]
  exact Nat.mod_eq_of_lt (by simp; omega)

theorem add_eight {w : Word} (h : w.toNat + 8 < 2 ^ 32) : (w + 8).toNat = w.toNat + 8 := by
  rw [BitVec.toNat_add]
  exact Nat.mod_eq_of_lt (by simp; omega)

theorem sub_eight {w : Word} (h : 8 ≤ w.toNat) : (w - 8).toNat = w.toNat - 8 :=
  BitVec.toNat_sub_of_le h

theorem peek_congr {m m' : Mem} {w : Word} (h : ∀ a, w.toNat ≤ a → a < w.toNat + 4 → m' a = m a) :
    peek m' w = peek m w := by
  exact congrArg _ (readN_congr h)

/-- A chain stays when its saved words stay. -/
theorem Chain.congr {m m' : Mem} {bottom : Word} {fs : List Frame} :
    ∀ {ebp : Word}, Chain m bottom ebp fs → (∀ f ∈ fs, f.base.toNat + 8 < 2 ^ 32) →
      (∀ f ∈ fs, ∀ a, f.Saves a → m' a = m a) → Chain m' bottom ebp fs := by
  induction fs with
  | nil => exact fun h _ _ => h
  | cons f fs ih =>
    rintro ebp ⟨rfl, hret, hrest⟩ hend hsame
    rw [List.forall_mem_cons] at hend hsame
    have hfour := add_four hend.1
    refine ⟨rfl, ?_, ?_⟩
    · rw [← hret]
      refine peek_congr fun a hlo hhi => hsame.1 a ⟨by omega, by omega⟩
    · rw [peek_congr fun a hlo hhi => hsame.1 a ⟨hlo, by omega⟩]
      exact ih hrest hend.2 hsame.2

section

variable {Kept : Nat → Prop} {m : Mem} {limit top : Nat} {bottom : Word}

theorem Framed.call (htop : top < 2 ^ 32) (hkept : ∀ a, Kept a → top ≤ a) {s : CallState}
    {fs : List Frame} {ret : Word} (h : Framed Kept m bottom limit top (s, fs))
    (hroom : limit + 8 ≤ s.esp.toNat) :
    Framed Kept m bottom limit top (s.enter ret, ⟨s.esp - 8, ret⟩ :: fs) := by
  have height : (s.esp - 8).toNat = s.esp.toNat - 8 := sub_eight (by omega)
  have hle : s.esp.toNat ≤ top := h.within.le
  have hlo : 4 * [ret, s.ebp].length ≤ (s.mem, s.esp).2.toNat := show 4 * 2 ≤ s.esp.toNat by omega
  have hpushed := stack_pushed hlo
  have hsp : (pushAll (s.mem, s.esp) [ret, s.ebp]).2 = s.esp - 8 := by
    change s.esp - 4 - 4 = s.esp - 8
    rw [BitVec.sub_sub]
    rfl
  rw [hsp] at hpushed
  obtain ⟨hebp, hret, -⟩ := hpushed
  refine ⟨⟨rfl, hret, ?_⟩, ⟨Nat.le_refl _, h.within.mono ?_⟩, ?_, fun a ha => ?_⟩
  · change Chain (pushAll (s.mem, s.esp) [ret, s.ebp]).1 bottom
      (peek (pushAll (s.mem, s.esp) [ret, s.ebp]).1 (s.esp - 8)) fs
    rw [hebp]
    refine h.chain.congr (fun f hf => ?_) fun f hf a ha => ?_
    · have hbase := h.within.base_le hf
      omega
    · have hbase := h.within.base_le hf
      exact pushAll_outside hlo (Or.inr (hbase.1.trans ha.1))
  · dsimp only
    omega
  · change limit ≤ (s.esp - 8).toNat
    omega
  · rw [← h.kept a ha]
    exact pushAll_outside hlo (Or.inr (hle.trans (hkept a ha)))

/-- **One step.** -/
theorem framed_step (htop : top < 2 ^ 32) (hkept : ∀ a, Kept a → top ≤ a)
    {s t : CallState × List Frame} {e : CallEvent} (h : Framed Kept m bottom limit top s)
    (hstep : CallStep Kept limit top s e t) : Framed Kept m bottom limit top t := by
  cases hstep with
  | call hroom => exact h.call htop hkept hroom
  | @leave s f fs =>
    obtain ⟨⟨hebp, -, hrest⟩, ⟨hbase, hwithin⟩, hlimit, hsame⟩ := h
    dsimp only at hebp hrest hbase hwithin hlimit
    have hle := hwithin.le
    rw [CallState.leave, hebp]
    refine ⟨hrest, ?_, ?_, hsame⟩
    · dsimp only
      rw [add_eight (by omega)]
      exact hwithin
    · dsimp only
      rw [add_eight (by omega)]
      omega
  | move hlimit hwithin => exact ⟨h.chain, hwithin, hlimit, h.kept⟩
  | @store s fs a b hfree ha =>
    have hne : ∀ x, x ≠ a → write8 s.mem a b.toNat x = s.mem x := fun x hx => write8_ne _ _ hx
    refine ⟨h.chain.congr (fun f hf => ?_) fun f hf x hx => hne x ?_, h.within, h.limit_le, ?_⟩
    · have hbase := h.within.base_le hf
      omega
    · rintro rfl
      exact hfree f hf hx
    · intro x hx
      rw [← h.kept x hx]
      refine hne x ?_
      rintro rfl
      exact ha hx

/-- **Runs.**  The frame pointer leads to the calls that have not returned. -/
theorem frames_run (htop : top < 2 ^ 32) (hkept : ∀ a, Kept a → top ≤ a)
    {s t : CallState × List Frame} {es : List CallEvent}
    (hrun : Run (CallStep Kept limit top) s es t) (h : Framed Kept m bottom limit top s) :
    Framed Kept m bottom limit top t :=
  hrun.invariant (fun _ _ _ hs hstep => framed_step htop hkept hs hstep) h

end

end FrogKernel.CallFrames
