import FrogKernel.Lib.Calendar
import FrogKernel.Lib.Runs
import Mathlib.Tactic.IntervalCases

/-!
# The timer interrupt (`devices/pit/pit.c`)

`pit_callback` counts the ticks and carries the wall clock on once in every
`PIT_HZ` of them.  `clock_next`: over any run of ticks the clock shows valid
Gregorian times, and moves to the next second exactly on those ticks.
-/

namespace FrogKernel.Pit

open FrogKernel.Calendar FrogKernel.Runs

def PIT_HZ : Nat := 1000

/-- `rtc_time_t` -/
structure RtcTime where
  seconds : Nat
  minutes : Nat
  hours : Nat
  day : Nat
  month : Nat
  year : Nat
  deriving DecidableEq

def daysInMonth : List Nat := [0, 31, 28, 31, 30, 31, 30, 31, 31, 30, 31, 30, 31]

def leapYear (year : Nat) : Bool := (year % 4 == 0 && year % 100 != 0) || year % 400 == 0

def getDaysInMonth (month year : Nat) : Nat :=
  if month = 2 ∧ leapYear year then 29 else daysInMonth.getD month 0

/-- `x + 1` in a `uint8_t`. -/
def inc8 (x : Nat) : Nat := (x + 1) % 2 ^ 8

/-! ## `pit_callback` -/

def countSecond (ticks : Nat) (t : RtcTime) : RtcTime :=
  if ticks % PIT_HZ = 0 then { t with seconds := inc8 t.seconds } else t

def carryMinute (t : RtcTime) : RtcTime :=
  if t.seconds ≥ 60 then { t with minutes := inc8 t.minutes, seconds := 0 } else t

def carryHour (t : RtcTime) : RtcTime :=
  if t.minutes ≥ 60 then { t with hours := inc8 t.hours, minutes := 0 } else t

def carryDay (t : RtcTime) : RtcTime :=
  if t.hours ≥ 24 then { t with day := inc8 t.day, hours := 0 } else t

def carryYear (t : RtcTime) : RtcTime :=
  if t.month > 12 then { t with year := (t.year + 1) % 2 ^ 16, month := 1 } else t

def carryMonth (t : RtcTime) : RtcTime :=
  if t.day > getDaysInMonth t.month t.year then
    carryYear { t with month := inc8 t.month, day := 1 }
  else t

/-- `ticks`, `curr_time`, whether `curr_thread` is set, `schedule_pending`. -/
structure PitState where
  ticks : Nat
  currTime : RtcTime
  currThread : Bool
  schedulePending : Bool

/-- What `pit_callback` calls. -/
inductive PitCall where
  | consoleToggleCursor
  | fbSwap
  deriving DecidableEq

def pitCallback (s : PitState) : List PitCall × PitState :=
  let ticks := (s.ticks + 1) % 2 ^ 32
  let currTime := carryMonth (carryDay (carryHour (carryMinute (countSecond ticks s.currTime))))
  let calls := (if ticks % 500 = 0 then [PitCall.consoleToggleCursor] else []) ++
    (if ticks % 16 = 0 then [PitCall.fbSwap] else [])
  (calls, { s with
    ticks, currTime
    schedulePending := if s.currThread ∧ ticks % 10 = 0 then true else s.schedulePending })

/-- A timer interrupt.  Between two of them the scheduler runs, and whether a
thread runs and a switch is pending is its own. -/
inductive PitStep : PitState → List PitCall → PitState → Prop
  | tick (s : PitState) (currThread schedulePending : Bool) :
      PitStep s (pitCallback { s with currThread, schedulePending }).1
        (pitCallback { s with currThread, schedulePending }).2

/-! ## The clock as a calendar -/

def RtcTime.dateTime (t : RtcTime) : DateTime where
  year := t.year
  month := t.month
  day := t.day
  hours := t.hours
  minutes := t.minutes
  seconds := t.seconds

/-- The next callback increments `seconds`. -/
def Counts (s : PitState) : Prop := (s.ticks + 1) % 2 ^ 32 % PIT_HZ = 0

instance (s : PitState) : Decidable (Counts s) := inferInstanceAs (Decidable (_ = _))

theorem dateTime_injective {t u : RtcTime} (h : t.dateTime = u.dateTime) : t = u := by
  cases t
  cases u
  simpa [RtcTime.dateTime, and_comm, and_left_comm, and_assoc] using h

@[simp]
theorem countSecond_year (ticks : Nat) (t : RtcTime) : (countSecond ticks t).year = t.year := by
  unfold countSecond
  split <;> rfl

@[simp]
theorem carryMinute_year (t : RtcTime) : (carryMinute t).year = t.year := by
  unfold carryMinute
  split <;> rfl

@[simp]
theorem carryHour_year (t : RtcTime) : (carryHour t).year = t.year := by
  unfold carryHour
  split <;> rfl

@[simp]
theorem carryDay_year (t : RtcTime) : (carryDay t).year = t.year := by
  unfold carryDay
  split <;> rfl

theorem getDaysInMonth_eq {month : Nat} (year : Nat) (hm : 1 ≤ month) (hle : month ≤ 12) :
    getDaysInMonth month year = monthLength year month := by
  have hleap : leapYear year = true ↔ IsLeap year := by
    simp [leapYear, IsLeap]
  unfold getDaysInMonth
  simp only [hleap]
  interval_cases month <;> simp [monthLength, daysInMonth]

/-! ## Each carry keeps the instant -/

/-- A valid time but for fields that may stand one past their range. -/
structure UpTo (day hours minutes seconds : Nat) (t : RtcTime) : Prop where
  month_pos : 1 ≤ t.month
  month_le : t.month ≤ 12
  day_pos : 1 ≤ t.day
  day_le : t.day ≤ monthLength t.year t.month + day
  hours_lt : t.hours < hours
  minutes_lt : t.minutes < minutes
  seconds_lt : t.seconds < seconds

theorem upTo_iff_valid (t : RtcTime) : UpTo 0 24 60 60 t ↔ Valid t.dateTime :=
  ⟨fun h => ⟨h.month_pos, h.month_le, h.day_pos, h.day_le, h.hours_lt, h.minutes_lt, h.seconds_lt⟩,
    fun h => ⟨h.month_pos, h.month_le, h.day_pos, h.day_le, h.hours_lt, h.minutes_lt,
      h.seconds_lt⟩⟩

theorem inc8_of_lt {x : Nat} (h : x < 2 ^ 8 - 1) : inc8 x = x + 1 :=
  Nat.mod_eq_of_lt (by omega)

variable {t : RtcTime}

theorem carryMinute_spec (h : UpTo 0 24 60 61 t) : UpTo 0 24 61 60 (carryMinute t) ∧
    instant (carryMinute t).dateTime = instant t.dateTime := by
  obtain ⟨hm, hm', hd, hd', hh, hn, hs⟩ := h
  unfold carryMinute
  split
  · refine ⟨⟨hm, hm', hd, hd', hh, ?_, by simp⟩, ?_⟩
    · simp only [inc8_of_lt (show t.minutes < 2 ^ 8 - 1 by omega)]
      omega
    · simp only [instant, dayNumber, RtcTime.dateTime,
        inc8_of_lt (show t.minutes < 2 ^ 8 - 1 by omega)]
      omega
  · exact ⟨⟨hm, hm', hd, hd', hh, by omega, by omega⟩, rfl⟩

theorem carryHour_spec (h : UpTo 0 24 61 60 t) : UpTo 0 25 60 60 (carryHour t) ∧
    instant (carryHour t).dateTime = instant t.dateTime := by
  obtain ⟨hm, hm', hd, hd', hh, hn, hs⟩ := h
  unfold carryHour
  split
  · refine ⟨⟨hm, hm', hd, hd', ?_, by simp, hs⟩, ?_⟩
    · simp only [inc8_of_lt (show t.hours < 2 ^ 8 - 1 by omega)]
      omega
    · simp only [instant, dayNumber, RtcTime.dateTime,
        inc8_of_lt (show t.hours < 2 ^ 8 - 1 by omega)]
      omega
  · exact ⟨⟨hm, hm', hd, hd', by omega, by omega, hs⟩, rfl⟩

theorem carryDay_spec (h : UpTo 0 25 60 60 t) : UpTo 1 24 60 60 (carryDay t) ∧
    instant (carryDay t).dateTime = instant t.dateTime := by
  obtain ⟨hm, hm', hd, hd', hh, hn, hs⟩ := h
  have hlen := monthLength_le t.year t.month
  unfold carryDay
  split
  · have hday : inc8 t.day = t.day + 1 := inc8_of_lt (by omega)
    refine ⟨⟨hm, hm', by simp only [hday]; omega, by simp only [hday]; omega, by simp, hn, hs⟩, ?_⟩
    simp only [instant, dayNumber, RtcTime.dateTime, hday]
    omega
  · exact ⟨⟨hm, hm', hd, by omega, by omega, hn, hs⟩, rfl⟩

/-- The day after the last of a month is the first of the next, and the month
after December is January. -/
theorem carryMonth_spec (h : UpTo 1 24 60 60 t) (hyear : t.year < 65535) :
    UpTo 0 24 60 60 (carryMonth t) ∧ instant (carryMonth t).dateTime = instant t.dateTime := by
  obtain ⟨hm, hm', hd, hd', hh, hn, hs⟩ := h
  have hinc : inc8 t.month = t.month + 1 := inc8_of_lt (by omega)
  unfold carryMonth
  rw [getDaysInMonth_eq t.year hm hm']
  split
  next hlast =>
    have hday : t.day = monthLength t.year t.month + 1 := by omega
    have hnext : dayNumber ⟨t.year, t.month + 1, 1, t.hours, t.minutes, t.seconds⟩ =
        dayNumber t.dateTime := by
      rw [dayNumber_month hm rfl]
      have hpos := monthLength_ge t.year t.month
      simp only [dayNumber, RtcTime.dateTime, hday]
      omega
    unfold carryYear
    rw [hinc]
    split
    next hdec =>
      have hmonth : t.month = 12 := by simp only at hdec; omega
      have hinc : (t.year + 1) % 2 ^ 16 = t.year + 1 := Nat.mod_eq_of_lt (by omega)
      refine ⟨⟨le_rfl, by simp, le_rfl, ?_, hh, hn, hs⟩, ?_⟩
      · have := monthLength_ge (t.year + 1) 1
        simp only [hinc]
        omega
      · simp only [instant, RtcTime.dateTime, hinc] at hnext ⊢
        rw [dayNumber_year, ← hnext, hmonth]
    next hin =>
      refine ⟨⟨by simp, by simpa using hin, le_rfl, ?_, hh, hn, hs⟩, ?_⟩
      · have := monthLength_ge t.year (t.month + 1)
        simp only
        omega
      · simp only [instant, RtcTime.dateTime] at hnext ⊢
        rw [hnext]
  next hin => exact ⟨⟨hm, hm', hd, by omega, hh, hn, hs⟩, rfl⟩

/-! ## The callback -/

theorem countSecond_spec (h : Valid t.dateTime) (ticks : Nat) :
    UpTo 0 24 60 61 (countSecond ticks t) ∧
      instant (countSecond ticks t).dateTime =
        instant t.dateTime + if ticks % PIT_HZ = 0 then 1 else 0 := by
  obtain ⟨hm, hm', hd, hd', hh, hn, hs⟩ := h
  simp only [RtcTime.dateTime] at hm hm' hd hd' hh hn hs
  have hinc : inc8 t.seconds = t.seconds + 1 := inc8_of_lt (by omega)
  unfold countSecond
  split
  · rw [hinc]
    exact ⟨⟨hm, hm', hd, hd', hh, hn, by simp only; omega⟩, rfl⟩
  · exact ⟨⟨hm, hm', hd, hd', hh, hn, by omega⟩, rfl⟩

/-- **One callback.** -/
theorem pitCallback_spec (s : PitState) (h : Valid s.currTime.dateTime)
    (hyear : s.currTime.year < 65535) :
    Valid (pitCallback s).2.currTime.dateTime ∧
      instant (pitCallback s).2.currTime.dateTime =
        instant s.currTime.dateTime + if (s.ticks + 1) % 2 ^ 32 % PIT_HZ = 0 then 1 else 0 := by
  obtain ⟨h0, hinst0⟩ := countSecond_spec h ((s.ticks + 1) % 2 ^ 32)
  obtain ⟨h1, hinst1⟩ := carryMinute_spec h0
  obtain ⟨h2, hinst2⟩ := carryHour_spec h1
  obtain ⟨h3, hinst3⟩ := carryDay_spec h2
  obtain ⟨h4, hinst4⟩ := carryMonth_spec h3 (by
    simpa only [carryDay_year, carryHour_year, carryMinute_year, countSecond_year] using hyear)
  refine ⟨(upTo_iff_valid _).1 h4, ?_⟩
  calc instant (pitCallback s).2.currTime.dateTime
      = instant (countSecond ((s.ticks + 1) % 2 ^ 32) s.currTime).dateTime :=
        hinst4.trans (hinst3.trans (hinst2.trans hinst1))
    _ = _ := hinst0

theorem pitStep_spec {s u : PitState} {calls : List PitCall} (hstep : PitStep s calls u)
    (h : Valid s.currTime.dateTime) (hyear : s.currTime.year < 65535) :
    Valid u.currTime.dateTime ∧ instant u.currTime.dateTime =
      instant s.currTime.dateTime + if Counts s then 1 else 0 := by
  cases hstep with
  | tick currThread schedulePending =>
    exact pitCallback_spec { s with currThread, schedulePending } h hyear

/-- **The clock.**  After any run of ticks from a valid time, the time is valid,
and the next tick leaves it or moves it on by one second, the latter precisely
when it counts a second. -/
theorem clock_next {s₀ s : PitState} {es : List (List PitCall)}
    (hrun : Run (Guarded (fun s _ => s.currTime.year < 65535) PitStep) s₀ es s)
    (h₀ : Valid s₀.currTime.dateTime) :
    Valid s.currTime.dateTime ∧
      ∀ calls u, PitStep s calls u → s.currTime.year < 65535 →
        Valid u.currTime.dateTime ∧
        (u.currTime = s.currTime ∨ IsNext s.currTime.dateTime u.currTime.dateTime) ∧
        (IsNext s.currTime.dateTime u.currTime.dateTime ↔ Counts s) := by
  have hvalid : Valid s.currTime.dateTime :=
    hrun.invariant (I := fun s => Valid s.currTime.dateTime)
      (fun _ _ _ h hr => (pitStep_spec hr.2 h hr.1).1) h₀
  refine ⟨hvalid, fun calls u hstep hyear => ?_⟩
  obtain ⟨hu, hinst⟩ := pitStep_spec hstep hvalid hyear
  by_cases hcounts : Counts s
  · rw [if_pos hcounts] at hinst
    have hnext := isNext_of_instant hu hinst
    exact ⟨hu, Or.inr hnext, iff_of_true hnext hcounts⟩
  · rw [if_neg hcounts] at hinst
    have hsame : u.currTime.dateTime = s.currTime.dateTime := instant_injective hu hvalid hinst
    refine ⟨hu, Or.inl (dateTime_injective hsame), iff_of_false ?_ hcounts⟩
    exact fun hnext => hnext.ne hsame

def newYearsEve : PitState where
  ticks := 998
  currTime := ⟨59, 59, 23, 31, 12, 1999⟩
  currThread := false
  schedulePending := false

theorem newYearsEve_next :
    IsNext ⟨1999, 12, 31, 23, 59, 59⟩ ⟨2000, 1, 1, 0, 0, 0⟩ := by
  have hrun := Run.single (show Guarded (fun s _ => s.currTime.year < 65535) PitStep newYearsEve
    _ _ from ⟨by decide, PitStep.tick newYearsEve false false⟩)
  have hvalid : Valid newYearsEve.currTime.dateTime := by constructor <;> decide
  have hlast := PitStep.tick (pitCallback newYearsEve).2 false false
  exact ((clock_next hrun hvalid).2 _ _ hlast (by decide)).2.2.2 (by decide)

end FrogKernel.Pit
