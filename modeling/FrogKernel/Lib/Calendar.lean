import Mathlib.Algebra.Group.Nat.Defs
import Mathlib.Order.Monotone.Basic
import Mathlib.Tactic.Common

/-!
# The Gregorian calendar

Dates and times with the leap rule of 4, 100 and 400 years, counted in seconds
from the start of year 0.  `instant_injective`: a second has one name, so the
successor of a time is the valid time with the next count.
-/

namespace FrogKernel.Calendar

def IsLeap (y : Nat) : Prop := (y % 4 = 0 ∧ y % 100 ≠ 0) ∨ y % 400 = 0

instance (y : Nat) : Decidable (IsLeap y) := inferInstanceAs (Decidable (_ ∨ _))

def monthLength (y : Nat) : Nat → Nat
  | 2 => if IsLeap y then 29 else 28
  | 4 | 6 | 9 | 11 => 30
  | _ => 31

structure DateTime where
  year : Nat
  month : Nat
  day : Nat
  hours : Nat
  minutes : Nat
  seconds : Nat
  deriving DecidableEq

structure Valid (t : DateTime) : Prop where
  month_pos : 1 ≤ t.month
  month_le : t.month ≤ 12
  day_pos : 1 ≤ t.day
  day_le : t.day ≤ monthLength t.year t.month
  hours_lt : t.hours < 24
  minutes_lt : t.minutes < 60
  seconds_lt : t.seconds < 60

/-- The days of the first `n` months of year `y`. -/
def monthDays (y : Nat) : Nat → Nat
  | 0 => 0
  | n + 1 => monthDays y n + monthLength y (n + 1)

/-- The days of the years before `y`. -/
def yearDays : Nat → Nat
  | 0 => 0
  | y + 1 => yearDays y + monthDays y 12

def dayNumber (t : DateTime) : Nat :=
  yearDays t.year + (monthDays t.year (t.month - 1) + (t.day - 1))

/-- The seconds since the start of year 0. -/
def instant (t : DateTime) : Nat :=
  ((dayNumber t * 24 + t.hours) * 60 + t.minutes) * 60 + t.seconds

/-- `u` is one second after `t`. -/
structure IsNext (t u : DateTime) : Prop where
  valid : Valid u
  instant : instant u = instant t + 1
  unique : ∀ v, Valid v → Calendar.instant v = Calendar.instant t + 1 → v = u

/-! ## A second has one name -/

theorem monthDays_mono (y : Nat) : Monotone (monthDays y) :=
  monotone_nat_of_le_succ fun _ => Nat.le_add_right _ _

theorem yearDays_mono : Monotone yearDays :=
  monotone_nat_of_le_succ fun _ => Nat.le_add_right _ _

theorem Valid.month_days {t : DateTime} (h : Valid t) :
    monthDays t.year (t.month - 1) + (t.day - 1) < monthDays t.year t.month := by
  obtain ⟨m, hm⟩ : ∃ m, t.month = m + 1 := ⟨t.month - 1, by have := h.month_pos; omega⟩
  have hday := h.day_le
  have hpos := h.day_pos
  rw [hm] at hday ⊢
  rw [Nat.add_sub_cancel, monthDays]
  omega

theorem Valid.year_days {t : DateTime} (h : Valid t) :
    yearDays t.year ≤ dayNumber t ∧ dayNumber t < yearDays (t.year + 1) := by
  have hmonth := h.month_days
  have hle : monthDays t.year t.month ≤ monthDays t.year 12 := monthDays_mono _ h.month_le
  rw [dayNumber, yearDays]
  omega

/-- Values in increasing blocks: the same value is in the same block. -/
theorem block_unique {f : Nat → Nat} (hf : Monotone f) {a b x : Nat} (ha : f a ≤ x)
    (ha' : x < f (a + 1)) (hb : f b ≤ x) (hb' : x < f (b + 1)) : a = b := by
  rcases Nat.lt_trichotomy a b with hlt | heq | hlt
  · have := hf (show a + 1 ≤ b from hlt)
    omega
  · exact heq
  · have := hf (show b + 1 ≤ a from hlt)
    omega

theorem dayNumber_injective {t u : DateTime} (ht : Valid t) (hu : Valid u)
    (h : dayNumber t = dayNumber u) : t.year = u.year ∧ t.month = u.month ∧ t.day = u.day := by
  have hyear : t.year = u.year := by
    obtain ⟨hu1, hu2⟩ := hu.year_days
    rw [← h] at hu1 hu2
    exact block_unique yearDays_mono ht.year_days.1 ht.year_days.2 hu1 hu2
  have hmt := ht.month_days
  have hmu := hu.month_days
  have hpt := ht.month_pos
  have hpu := hu.month_pos
  have hdt := ht.day_pos
  have hdu := hu.day_pos
  rw [dayNumber, dayNumber, hyear] at h
  rw [hyear] at hmt
  have hmonth : t.month - 1 = u.month - 1 := by
    refine block_unique (monthDays_mono u.year)
      (x := monthDays u.year (t.month - 1) + (t.day - 1)) (by omega) ?_ (by omega) ?_
    · rwa [Nat.sub_add_cancel hpt]
    · rw [Nat.sub_add_cancel hpu]
      omega
  rw [hmonth] at h
  exact ⟨hyear, by omega, by omega⟩

theorem instant_injective {t u : DateTime} (ht : Valid t) (hu : Valid u)
    (h : instant t = instant u) : t = u := by
  have hst := ht.seconds_lt
  have hsu := hu.seconds_lt
  have hmt := ht.minutes_lt
  have hmu := hu.minutes_lt
  have hht := ht.hours_lt
  have hhu := hu.hours_lt
  rw [instant, instant] at h
  have hdays : dayNumber t = dayNumber u := by omega
  obtain ⟨hyear, hmonth, hday⟩ := dayNumber_injective ht hu hdays
  cases t
  cases u
  simp only [DateTime.mk.injEq] at *
  omega

theorem isNext_of_instant {t u : DateTime} (hu : Valid u) (h : instant u = instant t + 1) :
    IsNext t u :=
  ⟨hu, h, fun _ hv hinst => instant_injective hv hu (hinst.trans h.symm)⟩

theorem IsNext.ne {t u : DateTime} (h : IsNext t u) : u ≠ t := by
  rintro rfl
  have := h.instant
  omega

/-! ## The carries -/

theorem monthLength_le (y m : Nat) : monthLength y m ≤ 31 := by
  unfold monthLength
  split <;> first | omega | (split <;> omega)

theorem monthLength_ge (y m : Nat) : 28 ≤ monthLength y m := by
  unfold monthLength
  split <;> first | omega | (split <;> omega)

/-- A time less than twelve short months after the end of a year. -/
theorem Valid.year_le {t : DateTime} (h : Valid t) {y : Nat}
    (hlt : instant t < (yearDays (y + 1) + 336) * 86400) : t.year ≤ y + 1 := by
  have hmonths : ∀ n, 28 * n ≤ monthDays (y + 1) n := by
    intro n
    induction n with
    | zero => exact Nat.le_refl 0
    | succ n ih =>
      have hmonth := monthLength_ge (y + 1) (n + 1)
      rw [monthDays]
      omega
  have hdays : dayNumber t < yearDays (y + 2) := by
    have hyear := hmonths 12
    rw [instant] at hlt
    rw [yearDays]
    omega
  by_contra hyear
  have hmono := yearDays_mono (show y + 2 ≤ t.year by omega)
  have hday := h.year_days.1
  omega

/-- The first of the next month is a day after the last of a month. -/
theorem dayNumber_month {y m d : Nat} (hm : 1 ≤ m) (hd : d = monthLength y m) (h n s : Nat) :
    dayNumber ⟨y, m + 1, 1, h, n, s⟩ = dayNumber ⟨y, m, d, h, n, s⟩ + 1 := by
  have hpos := monthLength_ge y m
  obtain ⟨k, rfl⟩ : ∃ k, m = k + 1 := ⟨m - 1, by omega⟩
  simp only [dayNumber, Nat.add_sub_cancel, monthDays]
  omega

theorem dayNumber_year (y h n s : Nat) :
    dayNumber ⟨y + 1, 1, 1, h, n, s⟩ = dayNumber ⟨y, 13, 1, h, n, s⟩ := by
  change yearDays y + monthDays y 12 + (0 + 0) = yearDays y + (monthDays y 12 + 0)
  omega

end FrogKernel.Calendar
