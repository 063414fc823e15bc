import Mathlib.Tactic.TypeStar

/-!
# Runs of labelled transition relations

A relation `R : σ → ι → σ → Prop` says which labelled steps a system can take.
`Run R s is t` is a run from `s` to `t` whose labels are `is`, in order.

* `Run.invariant`: what one step preserves, a run preserves;
* `Run.history`: the same for a property of the state and the labels so far;
* `Run.simulates`: a step-by-step simulation is one of whole runs;
* `Guarded C R`: the steps of `R` that meet a condition `C` on the state before
  the step and on the label;
* `Run.guarded_or`: a run meets `C` throughout or has a first step that does not;
* `Always`, `EachStep`: what holds in every state, or at every step, of the runs
  with some labels between two states;
* `Run.always_iff`: if the steps that miss `C` are those that make a state
  unsafe, the states are safe exactly when the steps meet `C`;
* `follow`, `follow_run`: a script of choices, and the run it is.
-/

namespace FrogKernel.Runs

variable {σ ι : Type*}

/-- A run with its labels. -/
inductive Run (R : σ → ι → σ → Prop) : σ → List ι → σ → Prop
  | refl (s : σ) : Run R s [] s
  | step {s t u : σ} {i : ι} {is : List ι} : R s i t → Run R t is u → Run R s (i :: is) u

/-- The steps of `R` whose start state and label meet `C`. -/
def Guarded (C : σ → ι → Prop) (R : σ → ι → σ → Prop) : σ → ι → σ → Prop :=
  fun s i t => C s i ∧ R s i t

/-- A list with a last label, cut at one of its labels. -/
theorem snoc_eq {is past rest : List ι} {i j : ι} (h : is ++ [i] = past ++ j :: rest) :
    rest = [] ∧ is = past ∧ i = j ∨ ∃ rest', rest = rest' ++ [i] ∧ is = past ++ j :: rest' := by
  rcases List.eq_nil_or_concat rest with rfl | ⟨rest', k, rfl⟩
  · obtain ⟨his, hi⟩ := List.append_inj' h rfl
    exact Or.inl ⟨rfl, his, List.singleton_inj.mp hi⟩
  · rw [List.concat_eq_append] at h ⊢
    have h' : is ++ [i] = (past ++ j :: rest') ++ [k] := by simpa using h
    obtain ⟨his, hi⟩ := List.append_inj' h' rfl
    exact Or.inr ⟨rest', by rw [List.singleton_inj.mp hi], his⟩

variable {R : σ → ι → σ → Prop}

theorem Run.single {s t : σ} {i : ι} (h : R s i t) : Run R s [i] t :=
  .step h (.refl t)

theorem Run.trans {s t u : σ} {is js : List ι} (h : Run R s is t) (h' : Run R t js u) :
    Run R s (is ++ js) u := by
  induction h with
  | refl => exact h'
  | step hr _ ih => exact .step hr (ih h')

theorem Run.snoc {s t u : σ} {is : List ι} {i : ι} (h : Run R s is t) (hr : R t i u) :
    Run R s (is ++ [i]) u :=
  h.trans (.single hr)

theorem Run.of_cons {s u : σ} {i : ι} {is : List ι} (h : Run R s (i :: is) u) :
    ∃ t, R s i t ∧ Run R t is u := by
  cases h with
  | step hr h => exact ⟨_, hr, h⟩

theorem Run.of_append {s u : σ} {is js : List ι} (h : Run R s (is ++ js) u) :
    ∃ t, Run R s is t ∧ Run R t js u := by
  induction is generalizing s with
  | nil => exact ⟨s, .refl s, h⟩
  | cons i is ih =>
    obtain ⟨t, hr, h⟩ := h.of_cons
    obtain ⟨v, h1, h2⟩ := ih h
    exact ⟨v, .step hr h1, h2⟩

/-- **Invariant rule.** -/
theorem Run.invariant {I : σ → Prop} (hstep : ∀ s i t, I s → R s i t → I t)
    {s t : σ} {is : List ι} (h : Run R s is t) (hs : I s) : I t := by
  induction h with
  | refl => exact hs
  | step hr _ ih => exact ih (hstep _ _ _ hs hr)

/-- **History rule.**  The invariant may speak about the labels seen so far. -/
theorem Run.history {I : List ι → σ → Prop}
    (hstep : ∀ is s i t, I is s → R s i t → I (is ++ [i]) t)
    {s t : σ} {is : List ι} (h : Run R s is t) : ∀ {past}, I past s → I (past ++ is) t := by
  induction h with
  | refl => intro past hs; simpa using hs
  | step hr _ ih =>
    intro past hs
    have h' := ih (hstep _ _ _ _ hs hr)
    simpa using h'

/-- **Simulation rule.**  If every step is matched by one of `Q` with the same
label, every run is matched by a run of `Q` with the same labels. -/
theorem Run.simulates {τ : Type*} {Q : τ → ι → τ → Prop} (sim : σ → τ → Prop)
    (hstep : ∀ s a i t, sim s a → R s i t → ∃ b, Q a i b ∧ sim t b)
    {s t : σ} {is : List ι} (h : Run R s is t) : ∀ {a}, sim s a → ∃ b, Run Q a is b ∧ sim t b := by
  induction h with
  | refl => exact fun {a} hs => ⟨a, .refl a, hs⟩
  | step hr _ ih =>
    intro a hs
    obtain ⟨b, hq, ht⟩ := hstep _ _ _ _ hs hr
    obtain ⟨c, hrun, hu⟩ := ih ht
    exact ⟨c, .step hq hrun, hu⟩

theorem Run.mono {Q : σ → ι → σ → Prop} (hle : ∀ s i t, R s i t → Q s i t)
    {s t : σ} {is : List ι} (h : Run R s is t) : Run Q s is t := by
  induction h with
  | refl => exact .refl _
  | step hr _ ih => exact .step (hle _ _ _ hr) ih

theorem Run.of_guarded {C : σ → ι → Prop} {s t : σ} {is : List ι} (h : Run (Guarded C R) s is t) :
    Run R s is t :=
  h.mono fun _ _ _ hr => hr.2

/-- **First failure.**  `u` is the state before it. -/
theorem Run.guarded_or (C : σ → ι → Prop) {s t : σ} {is : List ι} (h : Run R s is t) :
    Run (Guarded C R) s is t ∨ ∃ past i rest u, is = past ++ i :: rest ∧
      Run (Guarded C R) s past u ∧ Run R u (i :: rest) t ∧ ¬ C u i := by
  induction h with
  | refl => exact Or.inl (.refl _)
  | @step s _ _ i is hr h ih =>
    by_cases hC : C s i
    · rcases ih with hrun | ⟨past, j, rest, u, rfl, hpast, hrest, hfail⟩
      · exact Or.inl (.step ⟨hC, hr⟩ hrun)
      · exact Or.inr ⟨i :: past, j, rest, u, rfl, .step ⟨hC, hr⟩ hpast, hrest, hfail⟩
    · exact Or.inr ⟨[], i, is, s, rfl, .refl s, .step hr h, hC⟩

/-- `P` holds in every state of the runs from `s` to `u` with these labels. -/
def Always (R : σ → ι → σ → Prop) (P : σ → Prop) (s : σ) (is : List ι) (u : σ) : Prop :=
  ∀ past rest t, is = past ++ rest → Run R s past t → Run R t rest u → P t

/-- Every step of the runs from `s` to `u` with these labels meets `C`. -/
def EachStep (R : σ → ι → σ → Prop) (C : σ → ι → Prop) (s : σ) (is : List ι) (u : σ) : Prop :=
  ∀ past i rest t, is = past ++ i :: rest → Run R s past t → Run R t (i :: rest) u → C t i

theorem EachStep.guarded {C : σ → ι → Prop} {s t u : σ} {past rest : List ι}
    (h : EachStep R C s (past ++ rest) u) (hpast : Run R s past t) (hrest : Run R t rest u) :
    Run (Guarded C R) s past t := by
  rcases hpast.guarded_or C with hall | ⟨before, i, after, v, rfl, hbefore, hafter, hfail⟩
  · exact hall
  · refine absurd (h before i (after ++ rest) v (by simp) hbefore.of_guarded ?_) hfail
    exact hafter.trans hrest

/-- **Exact condition.**  `I` is what the good steps keep. -/
theorem Run.always_iff {I P : σ → Prop} {C : σ → ι → Prop} (hsafe : ∀ s, I s → P s)
    (hkeep : ∀ s i t, I s → Guarded C R s i t → I t)
    (hbreak : ∀ s i t, I s → ¬ C s i → R s i t → ¬ P t) {s u : σ} {is : List ι} (h₀ : I s) :
    Always R P s is u ↔ EachStep R C s is u := by
  constructor
  · rintro h past i rest t rfl hpast hrest
    have hgood : Run (Guarded C R) s past t := by
      rcases hpast.guarded_or C with hall | ⟨before, j, after, v, rfl, hbefore, hafter, hfail⟩
      · exact hall
      · obtain ⟨w, hstep, hafter⟩ := hafter.of_cons
        refine absurd ?_ (hbreak v j w (hbefore.invariant hkeep h₀) hfail hstep)
        exact h (before ++ [j]) (after ++ i :: rest) w (by simp) (hbefore.of_guarded.snoc hstep)
          (hafter.trans hrest)
    obtain ⟨w, hstep, hrest⟩ := hrest.of_cons
    by_cases hC : C t i
    · exact hC
    · refine absurd ?_ (hbreak t i w (hgood.invariant hkeep h₀) hC hstep)
      exact h (past ++ [i]) rest w (by simp) (hpast.snoc hstep) hrest
  · rintro h past rest t rfl hpast hrest
    exact hsafe t ((h.guarded hpast hrest).invariant hkeep h₀)

/-- The labels and the last state of a script, as long as its choices lead on. -/
def follow {κ : Type*} (choose : σ → κ → Option (ι × σ)) : σ → List κ → Option (List ι × σ)
  | s, [] => some ([], s)
  | s, c :: cs =>
    (choose s c).bind fun r => (follow choose r.2 cs).map fun r' => (r.1 :: r'.1, r'.2)

/-- **Scripts.** -/
theorem follow_run {κ : Type*} {choose : σ → κ → Option (ι × σ)}
    (hstep : ∀ s c i t, choose s c = some (i, t) → R s i t) {cs : List κ} :
    ∀ {s t : σ} {is : List ι}, follow choose s cs = some (is, t) → Run R s is t := by
  induction cs with
  | nil =>
    intro s t is h
    cases h
    exact .refl s
  | cons c cs ih =>
    intro s t is h
    obtain ⟨⟨i, u⟩, hc, h⟩ := Option.bind_eq_some_iff.mp h
    obtain ⟨⟨is', v⟩, hcs, h⟩ := Option.map_eq_some_iff.mp h
    cases h
    exact .step (hstep _ _ _ _ hc) (ih hcs)

end FrogKernel.Runs
