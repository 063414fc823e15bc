import FrogKernel.Lib.Runs
import Mathlib.Data.List.Induction
import Mathlib.Tactic.Common

/-!
# Logs of an allocator

What a heap was asked for and given back, in order, next to the memory of some
other allocator.  `live_iff`: a block is live when it was handed out and not
freed since.  `Owned`: everything that is freed is live.  `Safe L ops L'` is a
triple for operations, with a rule for each, and `Owned.safe` uses it.
-/

namespace FrogKernel.AllocLog

open FrogKernel.Runs

variable {α : Type*} [DecidableEq α]

/-- `foreign` memory is that of another allocator. -/
inductive Op (α : Type*) where
  | alloc (p : α)
  | foreign (p : α)
  | free (p : α)
  deriving DecidableEq

/-- Is `p` live after one more operation? -/
def Op.leaves (p : α) (live : Bool) : Op α → Bool
  | .alloc q => q = p || live
  | .foreign _ => live
  | .free q => q ≠ p && live

def live (log : List (Op α)) (p : α) : Bool := log.foldl (Op.leaves p) false

/-- Everything freed was handed out before and not freed since. -/
def Owned (log : List (Op α)) : Prop :=
  ∀ past p rest, log = past ++ .free p :: rest →
    ∃ before after, past = before ++ .alloc p :: after ∧ .free p ∉ after

/-- What the allocator may do after `log`: it hands out what is not live. -/
def Fits : List (Op α) → List (Op α) → Prop
  | _, [] => True
  | log, .alloc p :: ops => live log p = false ∧ Fits (log ++ [.alloc p]) ops
  | log, op :: ops => Fits (log ++ [op]) ops

instance decidableFits : ∀ log ops : List (Op α), Decidable (Fits log ops)
  | _, [] => .isTrue trivial
  | log, .alloc p :: ops =>
    @instDecidableAnd _ _ (instDecidableEqBool _ _) (decidableFits (log ++ [.alloc p]) ops)
  | log, .foreign p :: ops => decidableFits (log ++ [.foreign p]) ops
  | log, .free p :: ops => decidableFits (log ++ [.free p]) ops

/-- Every free of the operations is that of a live block. -/
def Frees : List (Op α) → List (Op α) → Prop
  | _, [] => True
  | log, .free p :: ops => live log p = true ∧ Frees (log ++ [.free p]) ops
  | log, op :: ops => Frees (log ++ [op]) ops

@[simp] theorem live_nil (p : α) : live [] p = false := rfl

@[simp] theorem live_snoc (log : List (Op α)) (op : Op α) (p : α) :
    live (log ++ [op]) p = op.leaves p (live log p) := by
  simp [live]

/-- **Live blocks.** -/
theorem live_iff (log : List (Op α)) (p : α) : live log p = true ↔
    ∃ before after, log = before ++ .alloc p :: after ∧ .free p ∉ after := by
  induction log using List.reverseRecOn with
  | nil => simp
  | append_singleton log op ih =>
    rw [live_snoc]
    constructor
    · intro h
      by_cases hop : op = .alloc p
      · exact ⟨log, [], by rw [hop], by simp⟩
      have hne : op ≠ .free p := by
        rintro rfl
        simp [Op.leaves] at h
      have hlive : live log p = true := by
        cases op with
        | alloc q =>
          have hq : q ≠ p := fun heq => hop (heq ▸ rfl)
          simpa [Op.leaves, hq] using h
        | foreign q => exact h
        | free q => exact (Bool.and_eq_true_iff.mp h).2
      obtain ⟨before, after, rfl, hafter⟩ := ih.mp hlive
      exact ⟨before, after ++ [op], by simp, by simp [hafter, Ne.symm hne]⟩
    · rintro ⟨before, after, heq, hafter⟩
      rcases snoc_eq heq with ⟨rfl, rfl, hop⟩ | ⟨after', rfl, rfl⟩
      · simp [hop, Op.leaves]
      · obtain ⟨hafter, hop⟩ := not_or.mp fun h => hafter (List.mem_append.mpr h)
        have hlive := ih.mpr ⟨before, after', rfl, hafter⟩
        cases op with
        | alloc q => simp [Op.leaves, hlive]
        | foreign q => exact hlive
        | free q =>
          have hq : q ≠ p := fun heq => hop (by simp [heq])
          simp [Op.leaves, hlive, hq]

omit [DecidableEq α] in
theorem owned_nil : Owned ([] : List (Op α)) := by
  intro past p rest h
  simp at h

/-- One operation. -/
theorem Owned.snoc {log : List (Op α)} {op : Op α} (h : Owned log)
    (hop : ∀ p, op = .free p → live log p = true) : Owned (log ++ [op]) := by
  intro past p rest heq
  rcases snoc_eq heq with ⟨-, rfl, rfl⟩ | ⟨rest', -, rfl⟩
  · exact (live_iff _ p).mp (hop p rfl)
  · exact h past p rest' rfl

/-- The last operation. -/
theorem Owned.last {log : List (Op α)} {p : α} (h : Owned (log ++ [.free p])) :
    live log p = true :=
  (live_iff log p).mpr (h log p [] rfl)

/-- **Operations in a row.** -/
theorem Owned.append {ops : List (Op α)} : ∀ {log : List (Op α)}, Owned log → Frees log ops →
    Owned (log ++ ops) := by
  induction ops with
  | nil =>
    intro log h _
    rwa [List.append_nil]
  | cons op ops ih =>
    intro log h hfrees
    rw [List.append_cons]
    cases op with
    | free p => exact ih (h.snoc fun q hq => by cases hq; exact hfrees.1) hfrees.2
    | alloc p => exact ih (h.snoc fun q hq => by cases hq) hfrees
    | foreign p => exact ih (h.snoc fun q hq => by cases hq) hfrees

theorem frees_append {ops ops' : List (Op α)} : ∀ {log : List (Op α)},
    Frees log (ops ++ ops') ↔ Frees log ops ∧ Frees (log ++ ops) ops' := by
  induction ops with
  | nil => simp [Frees]
  | cons op ops ih =>
    intro log
    cases op <;> simp [Frees, ih, and_assoc]

theorem fits_append {ops ops' : List (Op α)} : ∀ {log : List (Op α)},
    Fits log (ops ++ ops') ↔ Fits log ops ∧ Fits (log ++ ops) ops' := by
  induction ops with
  | nil => simp [Fits]
  | cons op ops ih =>
    intro log
    cases op <;> simp [Fits, ih, and_assoc]

theorem live_append {log ops : List (Op α)} {p : α} (h : live log p = true) (hp : .free p ∉ ops) :
    live (log ++ ops) p = true := by
  obtain ⟨before, after, rfl, hafter⟩ := (live_iff log p).mp h
  exact (live_iff _ p).mpr ⟨before, after ++ ops, by simp, by simp [hafter, hp]⟩

/-! ## Triples -/

/-- Where the blocks of `L` are live, the operations free live blocks only, and
those of `L'` are live after them. -/
def Safe (L : α → Prop) (ops : List (Op α)) (L' : α → Prop) : Prop :=
  ∀ log, (∀ x, L x → live log x = true) → Fits log ops →
    Frees log ops ∧ ∀ x, L' x → live (log ++ ops) x = true

variable {L L' L'' : α → Prop} {ops ops' : List (Op α)}

theorem Safe.skip (h : ∀ x, L' x → L x) : Safe L [] L' := by
  intro log hL _
  rw [List.append_nil]
  exact ⟨trivial, fun x hx => hL x (h x hx)⟩

theorem Safe.trans (h : Safe L ops L') (h' : Safe L' ops' L'') : Safe L (ops ++ ops') L'' := by
  intro log hL hfits
  obtain ⟨hfits, hfits'⟩ := fits_append.mp hfits
  obtain ⟨hfrees, hL'⟩ := h log hL hfits
  obtain ⟨hfrees', hL''⟩ := h' (log ++ ops) hL' hfits'
  refine ⟨frees_append.mpr ⟨hfrees, hfrees'⟩, ?_⟩
  rwa [List.append_assoc] at hL''

theorem Safe.pre (h : Safe L ops L') (hpre : ∀ x, L x → L'' x) : Safe L'' ops L' :=
  fun log hL hfits => h log (fun x hx => hL x (hpre x hx)) hfits

/-- **Frame rule.**  A block that is not freed stays live. -/
theorem Safe.frame {p : α} (h : Safe L ops L') (hp : .free p ∉ ops) :
    Safe (fun x => x = p ∨ L x) ops fun x => x = p ∨ L' x := by
  intro log hL hfits
  obtain ⟨hfrees, hL'⟩ := h log (fun x hx => hL x (Or.inr hx)) hfits
  refine ⟨hfrees, ?_⟩
  rintro x (rfl | hx)
  · exact live_append (hL x (Or.inl rfl)) hp
  · exact hL' x hx

/-- A block that is handed out is new. -/
theorem Safe.alloc {p : α} (h : ¬ L p → Safe (fun x => x = p ∨ L x) ops L') :
    Safe L (.alloc p :: ops) L' := by
  intro log hL hfits
  have hp : ¬ L p := fun hp => by
    have hlive := hL p hp
    rw [hfits.1] at hlive
    cases hlive
  have hnow : ∀ x, x = p ∨ L x → live (log ++ [.alloc p]) x = true := by
    rintro x (rfl | hx)
    · simp [Op.leaves]
    · simp [Op.leaves, hL x hx]
  rw [List.append_cons]
  exact h hp _ hnow hfits.2

theorem Safe.foreign {p : α} (h : Safe L ops L') : Safe L (.foreign p :: ops) L' := by
  intro log hL hfits
  have hnow : ∀ x, L x → live (log ++ [.foreign p]) x = true := by
    intro x hx
    rw [live_snoc]
    exact hL x hx
  rw [List.append_cons]
  exact h _ hnow hfits

theorem Safe.free {p : α} (hp : L p) (h : Safe (fun x => x ≠ p ∧ L x) ops L') :
    Safe L (.free p :: ops) L' := by
  intro log hL hfits
  have hnow : ∀ x, x ≠ p ∧ L x → live (log ++ [.free p]) x = true := by
    rintro x ⟨hne, hx⟩
    simp [Op.leaves, hne.symm, hL x hx]
  obtain ⟨hfrees, hL'⟩ := h _ hnow hfits
  rw [List.append_cons]
  exact ⟨⟨hL p hp, hfrees⟩, hL'⟩

/-- **A run of safe operations.** -/
theorem Owned.safe {log : List (Op α)} (h : Owned log) (hsafe : Safe L ops L')
    (hL : ∀ x, L x → live log x = true) (hfits : Fits log ops) :
    Owned (log ++ ops) ∧ ∀ x, L' x → live (log ++ ops) x = true :=
  (hsafe log hL hfits).imp_left h.append

end FrogKernel.AllocLog
