import Mathlib

/-!
# Paths

A path is a list cut at a separator into its components.  Empty pieces do not
count, so leading, trailing and doubled separators make no difference; a `Clean`
path has none of them and is taken apart component by component.
-/

namespace FrogKernel.Paths

variable {α : Type} [DecidableEq α] {sep : α}

def components (sep : α) (s : List α) : List (List α) := (s.splitOn sep).filter (· ≠ [])

theorem components_nil : components sep [] = [] := rfl

theorem components_sep (s : List α) : components sep (sep :: s) = components sep s := by
  have hsplit := List.splitOn_append_cons_self (a := sep) [] s
  rw [components, ← List.nil_append (sep :: s), hsplit]
  rfl

theorem components_append {c : List α} (hsep : sep ∉ c) (hc : c ≠ []) (r : List α) :
    components sep (c ++ sep :: r) = c :: components sep r := by
  rw [components, List.splitOn_append_cons_self_of_not_mem hsep,
    List.filter_cons_of_pos (by simpa using hc)]
  rfl

theorem components_single {c : List α} (hsep : sep ∉ c) (hc : c ≠ []) :
    components sep c = [c] := by
  rw [components, List.splitOn_eq_singleton hsep, List.filter_cons_of_pos (by simpa using hc)]
  rfl

theorem components_dropWhile (s : List α) :
    components sep (s.dropWhile (· = sep)) = components sep s := by
  induction s with
  | nil => rfl
  | cons x s ih =>
    rw [List.dropWhile_cons]
    split
    case isTrue h =>
      obtain rfl : x = sep := of_decide_eq_true h
      rw [ih, components_sep]
    case isFalse h => rfl

theorem sep_notMem_takeWhile (s : List α) : sep ∉ s.takeWhile (· ≠ sep) := by
  intro h
  have hne := List.mem_takeWhile_imp h
  simp at hne

/-- What follows a component is empty or starts with a separator. -/
theorem dropWhile_cases (sep : α) (s : List α) :
    s.dropWhile (· ≠ sep) = [] ∨ ∃ r, s.dropWhile (· ≠ sep) = sep :: r := by
  induction s with
  | nil => exact Or.inl rfl
  | cons x s ih =>
    rw [List.dropWhile_cons]
    split
    case isTrue h => exact ih
    case isFalse h =>
      obtain rfl : x = sep := by simpa using h
      exact Or.inr ⟨s, rfl⟩

/-- The first component. -/
theorem components_takeWhile {x : α} {s : List α} (hx : x ≠ sep) :
    components sep (x :: s) =
      (x :: s).takeWhile (· ≠ sep) :: components sep ((x :: s).dropWhile (· ≠ sep)) := by
  have hne : (x :: s).takeWhile (· ≠ sep) ≠ [] := by simp [hx]
  have hsplit := List.takeWhile_append_dropWhile (p := (· ≠ sep)) (l := x :: s)
  rcases dropWhile_cases sep (x :: s) with h | ⟨r, h⟩
  · rw [h, List.append_nil] at hsplit
    rw [h, components_nil, hsplit]
    exact components_single (hsplit ▸ sep_notMem_takeWhile _) (List.cons_ne_nil x s)
  · rw [h, components_sep]
    rw [h] at hsplit
    conv => lhs; rw [← hsplit]
    exact components_append (sep_notMem_takeWhile _) hne r

/-- The first piece and the components behind it. -/
theorem components_congr {s t : List α} (hfirst : s.takeWhile (· ≠ sep) = t.takeWhile (· ≠ sep))
    (hrest : components sep (s.dropWhile (· ≠ sep)) = components sep (t.dropWhile (· ≠ sep))) :
    components sep s = components sep t := by
  have hcases : ∀ s : List α, components sep s = if s.takeWhile (· ≠ sep) = []
      then components sep (s.dropWhile (· ≠ sep))
      else s.takeWhile (· ≠ sep) :: components sep (s.dropWhile (· ≠ sep)) := by
    intro s
    cases s with
    | nil => rfl
    | cons x s =>
      by_cases hx : x = sep
      · simp [hx]
      · rw [if_neg (by simp [hx]), components_takeWhile hx]
  rw [hcases s, hcases t, hfirst, hrest]

/-- The components of what follows a first part are those that the whole has more. -/
theorem components_cancel {m r r' : List α}
    (h : components sep (m ++ r) = components sep (m ++ r')) : components sep r = components sep r' := by
  induction m with
  | nil => exact h
  | cons x m ih =>
    rw [List.cons_append, List.cons_append] at h
    by_cases hx : x = sep
    · subst hx
      rw [components_sep, components_sep] at h
      exact ih h
    · rw [components_takeWhile hx, components_takeWhile hx, List.cons.injEq,
        List.takeWhile_cons_of_pos (by simpa using hx), List.takeWhile_cons_of_pos (by simpa using hx),
        List.dropWhile_cons_of_pos (by simpa using hx), List.dropWhile_cons_of_pos (by simpa using hx),
        List.cons.injEq] at h
      exact ih (components_congr h.1.2 h.2)

theorem length_le_of_mem_components {s c : List α} (h : c ∈ components sep s) :
    c.length ≤ s.length := by
  induction hn : s.length using Nat.strong_induction_on generalizing s with
  | _ n ih =>
    subst hn
    cases s with
    | nil => cases h
    | cons x s =>
      by_cases hx : x = sep
      · subst hx
        rw [components_sep] at h
        exact Nat.le_succ_of_le (ih s.length (Nat.lt_succ_self _) h rfl)
      · rw [components_takeWhile hx, List.mem_cons] at h
        rcases h with rfl | h
        · exact (List.takeWhile_prefix _).length_le
        · rw [List.dropWhile_cons_of_pos (by simpa using hx)] at h
          have hle := (List.dropWhile_sublist (l := s) (· ≠ sep)).length_le
          exact Nat.le_trans (ih _ (Nat.lt_succ_of_le hle) h rfl) (Nat.le_succ_of_le hle)

/-! ## Clean paths -/

structure Clean (sep : α) (p : List α) : Prop where
  nonempty : p ≠ []
  no_leading : p.head? ≠ some sep
  no_trailing : p.getLast? ≠ some sep
  no_doubled : ¬ [sep, sep] <:+: p

instance (p : List α) : Decidable (Clean sep p) :=
  decidable_of_iff (p ≠ [] ∧ p.head? ≠ some sep ∧ p.getLast? ≠ some sep ∧ ¬ [sep, sep] <:+: p)
    ⟨fun h => ⟨h.1, h.2.1, h.2.2.1, h.2.2.2⟩, fun h => ⟨h.1, h.2, h.3, h.4⟩⟩

/-- A clean path is one component, or a component and a clean path. -/
theorem Clean.split {p : List α} (h : Clean sep p) : ∃ c, c ≠ [] ∧ sep ∉ c ∧
    (p = c ∨ ∃ r, Clean sep r ∧ p = c ++ sep :: r) := by
  obtain ⟨hne, hlead, htrail, hdouble⟩ := h
  have hsplit := List.takeWhile_append_dropWhile (p := (· ≠ sep)) (l := p)
  have hc : p.takeWhile (· ≠ sep) ≠ [] := by
    cases p with
    | nil => exact absurd rfl hne
    | cons x p =>
      have hx : x ≠ sep := fun he => hlead (by rw [he]; rfl)
      simp [hx]
  refine ⟨p.takeWhile (· ≠ sep), hc, sep_notMem_takeWhile p, ?_⟩
  rcases dropWhile_cases sep p with hrest | ⟨r, hrest⟩
  · left
    rw [hrest, List.append_nil] at hsplit
    exact hsplit.symm
  · right
    rw [hrest] at hsplit
    generalize p.takeWhile (· ≠ sep) = c at hc hsplit
    subst hsplit
    refine ⟨r, ⟨?_, ?_, ?_, ?_⟩, rfl⟩
    · rintro rfl
      exact htrail (by simp)
    · intro hhead
      obtain ⟨r', rfl⟩ : ∃ r', r = sep :: r' := by
        cases r with
        | nil => cases hhead
        | cons x r => exact ⟨r, by simpa using hhead⟩
      exact hdouble ⟨c, r', by simp⟩
    · intro hlast
      refine htrail ?_
      have hr : r ≠ [] := by
        rintro rfl
        cases hlast
      rwa [List.getLast?_append_cons, List.getLast?_cons_of_ne_nil hr]
    · rintro ⟨a, b, rfl⟩
      exact hdouble ⟨c ++ sep :: a, b, by simp⟩

/-- Induction over the components of a clean path. -/
theorem Clean.induct {motive : (p : List α) → Clean sep p → Prop}
    (single : ∀ c (h : Clean sep c), c ≠ [] → sep ∉ c → motive c h)
    (more : ∀ c r (h : Clean sep (c ++ sep :: r)) (hr : Clean sep r), c ≠ [] → sep ∉ c →
      motive r hr → motive (c ++ sep :: r) h)
    {p : List α} (h : Clean sep p) : motive p h := by
  obtain ⟨c, hc, hsep, rfl | ⟨r, hr, rfl⟩⟩ := h.split
  · exact single _ h hc hsep
  · exact more c r h hr hc hsep (Clean.induct single more hr)
termination_by p.length

end FrogKernel.Paths
