import Mathlib.Tactic.Common

/-!
# Computations that leave a trace

A computation that may fail, next to what it did on its way: `trace` has everything up
to the failure.  `mem_bind` says what is in the trace of a sequence: what its parts did that
it got to.  `forall_mem_bind` is the rule for a property of the whole trace.
-/

namespace FrogKernel.Traces

variable {ε ω α β γ : Type}

structure Traced (ε ω α : Type) where
  result : Except ε α
  trace : List ω

/-- A result, and what was done for it. -/
def emit (ws : List ω) (r : Except ε α) : Traced ε ω α := ⟨r, ws⟩

/-- A computation that leaves nothing in the trace. -/
def silent (r : Except ε α) : Traced ε ω α := ⟨r, []⟩

/-- The same computation with another name for everything it leaves in the trace. -/
def relabel {ω' : Type} (f : ω → ω') (x : Traced ε ω α) : Traced ε ω' α := ⟨x.result, x.trace.map f⟩

protected def Traced.bind (x : Traced ε ω α) (f : α → Traced ε ω β) : Traced ε ω β :=
  match x.result with
  | .error e => ⟨.error e, x.trace⟩
  | .ok a => ⟨(f a).result, x.trace ++ (f a).trace⟩

instance : Monad (Traced ε ω) where
  pure a := silent (.ok a)
  bind := Traced.bind

@[simp] theorem result_emit (ws : List ω) (r : Except ε α) : (emit ws r).result = r := rfl

@[simp] theorem trace_emit (ws : List ω) (r : Except ε α) : (emit ws r).trace = ws := rfl

@[simp] theorem result_silent (r : Except ε α) : (silent r : Traced ε ω α).result = r := rfl

@[simp] theorem trace_silent (r : Except ε α) : (silent r : Traced ε ω α).trace = [] := rfl

@[simp] theorem result_relabel {ω' : Type} (f : ω → ω') (x : Traced ε ω α) :
    (relabel f x).result = x.result := rfl

@[simp] theorem trace_relabel {ω' : Type} (f : ω → ω') (x : Traced ε ω α) :
    (relabel f x).trace = x.trace.map f := rfl

@[simp] theorem result_pure (a : α) : (pure a : Traced ε ω α).result = .ok a := rfl

@[simp] theorem trace_pure (a : α) : (pure a : Traced ε ω α).trace = [] := rfl

@[simp] theorem result_bind (x : Traced ε ω α) (f : α → Traced ε ω β) :
    (x >>= f).result = (x.result >>= fun a => (f a).result) := by
  change (Traced.bind x f).result = _
  rw [Traced.bind]
  cases x.result <;> rfl

theorem result_bind_ok {x : Traced ε ω α} {f : α → Traced ε ω β} {a : α} (h : x.result = .ok a) :
    (x >>= f).result = (f a).result := by
  rw [result_bind, h]
  rfl

theorem mem_bind {x : Traced ε ω α} {f : α → Traced ε ω β} {w : ω} :
    w ∈ (x >>= f).trace ↔ w ∈ x.trace ∨ ∃ a, x.result = .ok a ∧ w ∈ (f a).trace := by
  change w ∈ (Traced.bind x f).trace ↔ _
  rw [Traced.bind]
  cases x.result with
  | error e => simp
  | ok a => simp

/-- What holds of everything that a sequence leaves in the trace. -/
theorem forall_mem_bind {P : ω → Prop} {x : Traced ε ω α} {f : α → Traced ε ω β} :
    (∀ w ∈ (x >>= f).trace, P w) ↔
      (∀ w ∈ x.trace, P w) ∧ ∀ a, x.result = .ok a → ∀ w ∈ (f a).trace, P w := by
  constructor
  · exact fun h => ⟨fun w hw => h w (mem_bind.mpr (Or.inl hw)),
      fun a ha w hw => h w (mem_bind.mpr (Or.inr ⟨a, ha, hw⟩))⟩
  · rintro ⟨hx, hf⟩ w hw
    rcases mem_bind.mp hw with hw | ⟨a, ha, hw⟩
    · exact hx w hw
    · exact hf a ha w hw

theorem forall_mem_bind_ok {P : ω → Prop} {x : Traced ε ω α} {f : α → Traced ε ω β} {a : α}
    (h : x.result = .ok a) :
    (∀ w ∈ (x >>= f).trace, P w) ↔ (∀ w ∈ x.trace, P w) ∧ ∀ w ∈ (f a).trace, P w := by
  rw [forall_mem_bind, h]
  exact and_congr_right fun _ => ⟨fun hf => hf a rfl, fun hf a' ha' => by cases ha'; exact hf⟩

@[simp] theorem result_ite (p : Prop) [Decidable p] (x y : Traced ε ω α) :
    (if p then x else y).result = if p then x.result else y.result := by
  split <;> rfl

/-! ## Results and traces together -/

/-- The computation gives `a`, and `P` holds of everything it leaves in the trace. -/
structure Gives (P : ω → Prop) (x : Traced ε ω α) (a : α) : Prop where
  result : x.result = .ok a
  trace : ∀ w ∈ x.trace, P w

section

variable {P : ω → Prop}

theorem gives_pure (a : α) : Gives P (pure a : Traced ε ω α) a := ⟨rfl, by simp⟩

theorem gives_emit {w : ω} (h : P w) (a : α) : Gives P (emit [w] (.ok a) : Traced ε ω α) a :=
  ⟨rfl, fun _ hw => List.mem_singleton.mp hw ▸ h⟩

theorem Gives.bind {x : Traced ε ω α} {f : α → Traced ε ω β} {a : α} {b : β} (hx : Gives P x a)
    (hf : Gives P (f a) b) : Gives P (x >>= f) b :=
  ⟨(result_bind_ok hx.result).trans hf.result, (forall_mem_bind_ok hx.result).mpr ⟨hx.trace, hf.trace⟩⟩

theorem Gives.relabel {ω' : Type} {P : ω' → Prop} {f : ω → ω'} {x : Traced ε ω α} {a : α}
    (h : Gives (fun w => P (f w)) x a) : Gives P (relabel f x) a := by
  refine ⟨h.result, fun w hw => ?_⟩
  obtain ⟨v, hv, rfl⟩ := List.mem_map.mp hw
  exact h.trace v hv

theorem Gives.mono {Q : ω → Prop} {x : Traced ε ω α} {a : α} (h : Gives P x a)
    (hPQ : ∀ w, P w → Q w) : Gives Q x a :=
  ⟨h.result, fun w hw => hPQ w (h.trace w hw)⟩

/-- What the second part of a sequence does, the sequence does. -/
theorem Gives.mem_bind {x : Traced ε ω α} {f : α → Traced ε ω β} {a : α} {w : ω} (hx : Gives P x a)
    (hw : w ∈ (f a).trace) : w ∈ (x >>= f).trace :=
  Traces.mem_bind.mpr (Or.inr ⟨a, hx.result, hw⟩)

end

/-! ## Loops -/

theorem result_foldlM (f : β → α → Traced ε ω β) (xs : List α) (b : β) :
    (xs.foldlM f b).result = xs.foldlM (fun b x => (f b x).result) b := by
  induction xs generalizing b with
  | nil => rfl
  | cons x xs ih =>
    rw [List.foldlM_cons, List.foldlM_cons, result_bind]
    refine congrArg _ (funext fun b' => ?_)
    exact ih b'

end FrogKernel.Traces
