import Mathlib.Tactic.Common

/-!
# Pages and byte ranges

Pages of `P` bytes cut up the addresses, page `k` from `k * P` on.  A byte
range touches some pages and holds some of them whole.  `Counted` are the pages
a range is often rounded to: its length in pages, counted from the page of its
first byte.
-/

namespace FrogKernel.Pages

variable {P lo hi len k x : Nat}

/-- Page `k` has a byte in `[lo, hi)`. -/
def Touches (P lo hi k : Nat) : Prop := ∃ a, lo ≤ a ∧ a < hi ∧ a / P = k

/-- Every byte of page `k` is in `[lo, hi)`. -/
def Within (P lo hi k : Nat) : Prop := ∀ a, a / P = k → lo ≤ a ∧ a < hi

/-- How many pages `len` bytes fill. -/
def pageCount (P len : Nat) : Nat := (len + P - 1) / P

def Counted (P lo len k : Nat) : Prop := lo / P ≤ k ∧ k < lo / P + pageCount P len

theorem lt_pageCount (hP : 0 < P) : x < pageCount P len ↔ x * P < len := by
  have hle := Nat.le_div_iff_mul_le (x := x + 1) (y := len + P - 1) hP
  rw [Nat.add_mul, Nat.one_mul] at hle
  unfold pageCount
  omega

theorem div_eq_iff (hP : 0 < P) {a : Nat} : a / P = k ↔ k * P ≤ a ∧ a < (k + 1) * P := by
  rw [Nat.div_eq_iff hP, Nat.add_mul, Nat.one_mul]
  omega

theorem touches_iff (hP : 0 < P) : Touches P lo hi k ↔ lo < hi ∧ lo < (k + 1) * P ∧ k * P < hi := by
  constructor
  · rintro ⟨a, hlo, hhi, hk⟩
    have hpage := (div_eq_iff hP).mp hk
    omega
  · rintro ⟨hne, hlo, hhi⟩
    have hstep : (k + 1) * P = k * P + P := by rw [Nat.add_mul, Nat.one_mul]
    exact ⟨max lo (k * P), by omega, by omega, (div_eq_iff hP).mpr (by omega)⟩

theorem within_iff (hP : 0 < P) : Within P lo hi k ↔ lo ≤ k * P ∧ (k + 1) * P ≤ hi := by
  have hstep : (k + 1) * P = k * P + P := by rw [Nat.add_mul, Nat.one_mul]
  constructor
  · intro h
    have hfirst := h (k * P) ((div_eq_iff hP).mpr (by omega))
    have hlast := h (k * P + (P - 1)) ((div_eq_iff hP).mpr (by omega))
    omega
  · rintro ⟨hlo, hhi⟩ a ha
    have hpage := (div_eq_iff hP).mp ha
    omega

theorem Within.mono {hi' : Nat} (h : Within P lo hi k) (hle : hi ≤ hi') : Within P lo hi' k :=
  fun a ha => ⟨(h a ha).1, Nat.lt_of_lt_of_le (h a ha).2 hle⟩

/-- Outside the range, no page touches it. -/
theorem not_touches_iff (hP : 0 < P) :
    ¬ Touches P lo hi k ↔ hi ≤ lo ∨ (k + 1) * P ≤ lo ∨ hi ≤ k * P := by
  rw [touches_iff hP]
  omega

/-! ## Counting from the first page -/

theorem counted_iff (hP : 0 < P) : Counted P lo len k ↔ lo / P ≤ k ∧ (k - lo / P) * P < len := by
  rw [← lt_pageCount hP]
  unfold Counted
  omega

theorem mul_sub_page {q : Nat} (P : Nat) (hk : q ≤ k) : k * P = q * P + (k - q) * P := by
  rw [← Nat.add_mul]
  congr 1
  omega

/-- The count misses at most one page of the range, and none when the range
starts on a page. -/
theorem touches_counted (hP : 0 < P) (h : Touches P lo (lo + len) k) :
    Counted P lo len k ∨ (lo % P ≠ 0 ∧ k = lo / P + pageCount P len) := by
  obtain ⟨a, hlo, hhi, rfl⟩ := h
  have hk : lo / P ≤ a / P := Nat.div_le_div_right hlo
  have hsplit := mul_sub_page P hk
  have hpage := (div_eq_iff (k := a / P) hP).mp rfl
  have hfirst := (div_eq_iff (k := lo / P) hP).mp rfl
  by_cases hlen : (a / P - lo / P) * P < len
  · exact .inl ((counted_iff hP).mpr ⟨hk, hlen⟩)
  have hpos : a / P ≠ lo / P := by
    intro heq
    rw [heq, Nat.sub_self, Nat.zero_mul] at hlen
    omega
  have hmod : lo % P ≠ 0 := by
    intro hzero
    have := Nat.div_add_mod' lo P
    omega
  obtain ⟨y, hy⟩ : ∃ y, a / P - lo / P = y + 1 := ⟨a / P - lo / P - 1, by omega⟩
  have hstep : (y + 1) * P = y * P + P := by rw [Nat.add_mul, Nat.one_mul]
  rw [hy] at hsplit hlen
  rw [Nat.add_mul, Nat.one_mul] at hfirst
  have hin : y < pageCount P len := (lt_pageCount hP).mpr (by omega)
  have hout : ¬ y + 1 < pageCount P len := fun hlt => hlen ((lt_pageCount hP).mp hlt)
  exact .inr ⟨hmod, by omega⟩

/-- Between the first and the last counted page, the pages lie in the range. -/
theorem counted_within (hP : 0 < P) (h : Counted P lo len k) (hfirst : k ≠ lo / P)
    (hlast : k + 1 ≠ lo / P + pageCount P len) : Within P lo (lo + len) k := by
  obtain ⟨hk, hlt⟩ := h
  have hlen : (k + 1 - lo / P) * P < len := (lt_pageCount hP).mp (by omega)
  have hsplit := mul_sub_page P (show lo / P ≤ k + 1 by omega)
  have hlo := (div_eq_iff (k := lo / P) hP).mp rfl
  have hmono : (lo / P + 1) * P ≤ k * P := Nat.mul_le_mul_right P (by omega)
  exact (within_iff hP).mpr ⟨by omega, by omega⟩

end FrogKernel.Pages
