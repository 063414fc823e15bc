import Mathlib.Data.Finset.Preimage
import Mathlib.Logic.Relation

/-!
# Loops, round by round

The body of a loop takes the state at the start of a round and goes on with
another state or leaves the loop with a result.  It may also hang.

* `loop_eq_some`: a loop has a result exactly when it comes to a round that leaves;
* `loop_within`, `loop_below`: with finitely many states, their number bounds the rounds;
* `Climbs.ends`: a loop whose measure goes up in each round, below a bound, ends.
-/

namespace FrogKernel.Loops

variable {σ ρ : Type*}

/-- What a round does. -/
inductive Round (σ ρ : Type*) where
  | stay (s : σ)
  | leave (r : ρ)

/-- The result of a loop that leaves within the given number of rounds. -/
def loop (body : σ → Option (Round σ ρ)) : Nat → σ → Option ρ
  | 0, _ => none
  | n + 1, s => (body s).bind fun
    | .stay t => loop body n t
    | .leave r => some r

section Rounds

variable (body : σ → Option (Round σ ρ))

/-- The round that starts in `s` stays in the loop. -/
def Stays (s t : σ) : Prop := body s = some (.stay t)

/-- Some round of the loop from `s` starts in the state. -/
def Reaches : σ → σ → Prop := Relation.ReflTransGen (Stays body)

/-- The measure goes up in each round that stays. -/
def Climbs (key : σ → Nat) (s : σ) : Prop :=
  ∀ t u, Reaches body s t → Stays body t u → key t < key u

end Rounds

variable {body : σ → Option (Round σ ρ)}

theorem loop_stay {s t : σ} (h : Stays body s t) (n : Nat) :
    loop body (n + 1) s = loop body n t := by
  rw [loop, h, Option.bind_some]

theorem loop_leave {s : σ} {r : ρ} (h : body s = some (.leave r)) (n : Nat) :
    loop body (n + 1) s = some r := by
  rw [loop, h, Option.bind_some]

/-- A loop with a result has one with more rounds. -/
theorem loop_mono {n k : Nat} {s : σ} {r : ρ} (h : loop body n s = some r) (hk : n ≤ k) :
    loop body k s = some r := by
  induction n generalizing k s with
  | zero => cases h
  | succ n ih =>
    obtain ⟨k, rfl⟩ : ∃ j, k = j + 1 := ⟨k - 1, by omega⟩
    rw [loop] at h ⊢
    obtain ⟨round, hround, h⟩ := Option.bind_eq_some_iff.mp h
    rw [hround, Option.bind_some]
    cases round with
    | stay t => exact ih h (by omega)
    | leave r' => exact h

/-- **The round that leaves.** -/
theorem loop_eq_some {s : σ} {r : ρ} :
    (∃ n, loop body n s = some r) ↔ ∃ t, Reaches body s t ∧ body t = some (.leave r) := by
  constructor
  · rintro ⟨n, h⟩
    induction n generalizing s with
    | zero => cases h
    | succ n ih =>
      rw [loop] at h
      obtain ⟨round, hround, h⟩ := Option.bind_eq_some_iff.mp h
      cases round with
      | stay t =>
        obtain ⟨u, hreach, hleave⟩ := ih h
        exact ⟨u, .head hround hreach, hleave⟩
      | leave r' =>
        cases h
        exact ⟨s, .refl, hround⟩
  · rintro ⟨t, hreach, hleave⟩
    induction hreach using Relation.ReflTransGen.head_induction_on with
    | refl => exact ⟨1, loop_leave hleave 0⟩
    | head hstay _ ih =>
      obtain ⟨n, hn⟩ := ih
      exact ⟨n + 1, (loop_stay hstay n).trans hn⟩

/-- A loop that comes back to a state goes on for ever. -/
theorem loop_cycle {n : Nat} {s t : σ} (hstay : Stays body s t) (hback : Reaches body t s) :
    loop body n s = none := by
  induction n generalizing s t with
  | zero => rfl
  | succ n ih =>
    rw [loop_stay hstay]
    rcases Relation.ReflTransGen.cases_head hback with rfl | ⟨u, hu, hrest⟩
    · exact ih hstay .refl
    · exact ih hu (hrest.tail hstay)

/-- **Finitely many states.** -/
theorem loop_within [DecidableEq σ] {S : Finset σ} {n : Nat} {s : σ} {r : ρ}
    (hS : ∀ t, Reaches body s t → t ∈ S) (h : loop body n s = some r) :
    loop body S.card s = some r := by
  induction n generalizing S s with
  | zero => cases h
  | succ n ih =>
    have hs : s ∈ S := hS s .refl
    have hcard : S.card = (S.erase s).card + 1 := (Finset.card_erase_add_one hs).symm
    have hresult := h
    rw [loop] at h
    obtain ⟨round, hround, h⟩ := Option.bind_eq_some_iff.mp h
    cases round with
    | leave r' =>
      cases h
      rw [hcard]
      exact loop_leave hround _
    | stay t =>
      rw [hcard, loop_stay hround]
      refine ih (fun u hu => Finset.mem_erase.mpr ⟨?_, hS u (.head hround hu)⟩) h
      -- the loop does not come back to `s`, for it has a result
      rintro rfl
      rw [loop_cycle hround hu] at hresult
      cases hresult

/-- States numbered below `N`. -/
theorem loop_below {key : σ → Nat} {N n : Nat} {s : σ} {r : ρ} (hkey : Function.Injective key)
    (hbound : ∀ t, Reaches body s t → key t < N) (h : loop body n s = some r) :
    loop body N s = some r := by
  classical
  have hmem : ∀ t, Reaches body s t → t ∈ (Finset.range N).preimage key hkey.injOn := by
    intro t ht
    exact Finset.mem_preimage.mpr (Finset.mem_range.mpr (hbound t ht))
  have hcard : ((Finset.range N).preimage key hkey.injOn).card ≤ N := by
    have hle := Finset.card_le_card_of_injOn key
      (s := (Finset.range N).preimage key hkey.injOn) (t := Finset.range N)
      (fun t ht => Finset.mem_preimage.mp ht) hkey.injOn
    rwa [Finset.card_range] at hle
  exact loop_mono (loop_within hmem h) hcard

/-- **Termination.**  The measure is below `bound` in every round. -/
theorem Climbs.ends {key : σ → Nat} {bound n : Nat} {s : σ} (h : Climbs body key s)
    (hbound : ∀ t, Reaches body s t → key t < bound) (hgo : ∀ t, Reaches body s t → body t ≠ none)
    (hn : bound ≤ key s + n) : ∃ r, loop body n s = some r := by
  induction n generalizing s with
  | zero =>
    have hs := hbound s .refl
    omega
  | succ n ih =>
    obtain ⟨round, hround⟩ := Option.ne_none_iff_exists'.mp (hgo s .refl)
    cases round with
    | leave r => exact ⟨r, loop_leave hround n⟩
    | stay t =>
      have hup := h s t .refl hround
      obtain ⟨r, hr⟩ := ih (fun u v hu => h u v (.head hround hu))
        (fun u hu => hbound u (.head hround hu)) (fun u hu => hgo u (.head hround hu)) (by omega)
      exact ⟨r, (loop_stay hround n).trans hr⟩

end FrogKernel.Loops
