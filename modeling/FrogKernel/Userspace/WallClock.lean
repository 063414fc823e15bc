import FrogKernel.Devices.Rtc
import FrogKernel.Devices.Uptime
import FrogKernel.Userspace.UserPointers

/-!
# The wall clock (`kernel.c`, `devices/pit/pit.c`, `userspace/usyscall.c`)

`kmain` reads the clock chip into `curr_time`, the timer interrupt carries the
time on, and `sys_time` hands it to a process.

Main result: `wall_clock_iff`, a process is told the time of the chip at boot
plus the seconds since then exactly if the chip was read right.
-/

namespace FrogKernel.WallClock

open FrogKernel.Bytes FrogKernel.Calendar FrogKernel.Pit FrogKernel.Rtc
open FrogKernel.Syscall (Registers valPtr toUint32 valPtr_true)
open FrogKernel.Loader (RTC_TIME_SIZE)

/-! ## `sys_time` -/

/-- The assignments to `*user_time`; the byte before the year is padding. -/
def storeTime (m : Mem) (a : Nat) (t : RtcTime) : Mem :=
  let m := write8 m a t.seconds
  let m := write8 m (a + 1) t.minutes
  let m := write8 m (a + 2) t.hours
  let m := write8 m (a + 3) t.day
  let m := write8 m (a + 4) t.month
  writeN m (a + 6) 2 t.year

/-- `sys_time` with the memory of the process. -/
def sysTime (m : Mem) (regs : Registers) (currTime : RtcTime) : Mem × Registers :=
  if !valPtr regs.ebx RTC_TIME_SIZE then (m, { regs with eax := toUint32 (-1) })
  else (storeTime m regs.ebx currTime, { regs with eax := 0 })

/-- The `time_t` of the C library at an address. -/
def loadTime (m : Mem) (a : Nat) : RtcTime where
  seconds := (m a).toNat
  minutes := (m (a + 1)).toNat
  hours := (m (a + 2)).toNat
  day := (m (a + 3)).toNat
  month := (m (a + 4)).toNat
  year := read16 m (a + 6)

/-- The fields fit their types. -/
structure Fits (t : RtcTime) : Prop where
  seconds : t.seconds < 256
  minutes : t.minutes < 256
  hours : t.hours < 256
  day : t.day < 256
  month : t.month < 256
  year : t.year < 65536

theorem storeTime_outside (m : Mem) (t : RtcTime) {a x : Nat}
    (h : x < a ∨ a + RTC_TIME_SIZE ≤ x) : storeTime m a t x = m x := by
  have hsize : RTC_TIME_SIZE = 8 := rfl
  rw [storeTime, writeN_outside _ (by omega), write8_ne _ _ (by omega), write8_ne _ _ (by omega),
    write8_ne _ _ (by omega), write8_ne _ _ (by omega), write8_ne _ _ (by omega)]

/-- A process reads the time that was stored. -/
theorem loadTime_storeTime (m : Mem) (a : Nat) {t : RtcTime} (h : Fits t) :
    loadTime (storeTime m a t) a = t := by
  have hbyte : ∀ v < 256, (BitVec.ofNat 8 v).toNat = v := by
    intro v hv
    rw [BitVec.toNat_ofNat, Nat.mod_eq_of_lt hv]
  obtain ⟨seconds, minutes, hours, day, month, year⟩ := t
  obtain ⟨hs, hn, hh, hd, hm, hy⟩ := h
  simp only [loadTime, storeTime, RtcTime.mk.injEq]
  refine ⟨?_, ?_, ?_, ?_, ?_, readN_writeN_self _ hy⟩
  · rw [writeN_outside _ (by omega)]
    simp [write8, hbyte _ hs]
  · rw [writeN_outside _ (by omega)]
    simp [write8, hbyte _ hn]
  · rw [writeN_outside _ (by omega)]
    simp [write8, hbyte _ hh]
  · rw [writeN_outside _ (by omega)]
    simp [write8, hbyte _ hd]
  · rw [writeN_outside _ (by omega)]
    simp [write8, hbyte _ hm]

/-! ## From the first tick on -/

/-- What the first tick takes the time for: a reading may have up to 92 hours,
and all beyond 23 are the next midnight. -/
def carried (t : RtcTime) : DateTime := { t.dateTime with hours := min t.hours 24 }

/-- The other fields of the reading are right. -/
def DayValid (t : RtcTime) : Prop := Valid { t.dateTime with hours := 0 }

theorem DayValid.valid {t : RtcTime} (h : DayValid t) (hours : t.hours < 24) : Valid t.dateTime :=
  ⟨h.month_pos, h.month_le, h.day_pos, h.day_le, hours, h.minutes_lt, h.seconds_lt⟩

theorem instant_hours (t : DateTime) (hours : Nat) :
    instant { t with hours } = dayNumber t * 86400 + hours * 3600 + t.minutes * 60 + t.seconds := by
  have hday : dayNumber { t with hours } = dayNumber t := rfl
  rw [instant, hday]
  dsimp only
  omega

/-- The first tick does not count a second. -/
theorem firstTick_spec {s u : PitState} {calls : List PitCall} (hstep : PitStep s calls u)
    (hticks : s.ticks = 0) (h : DayValid s.currTime) (hyear : s.currTime.year < 65535) :
    Valid u.currTime.dateTime ∧ instant u.currTime.dateTime = instant (carried s.currTime) := by
  rcases Nat.lt_or_ge s.currTime.hours 24 with hlt | hge
  · have hspec := pitStep_spec hstep (h.valid hlt) hyear
    have hcount : ¬ Counts s := by
      rw [Counts, hticks]
      decide
    have hsame : carried s.currTime = s.currTime.dateTime := by
      rw [carried, Nat.min_eq_left (by omega)]
      rfl
    rw [if_neg hcount, Nat.add_zero] at hspec
    rwa [hsame]
  · have hseconds : ¬ 60 ≤ s.currTime.seconds := Nat.not_le.mpr h.seconds_lt
    have hminutes : ¬ 60 ≤ s.currTime.minutes := Nat.not_le.mpr h.minutes_lt
    have hday : carryDay s.currTime = carryDay { s.currTime with hours := 24 } := by
      rw [carryDay, carryDay, if_pos hge, if_pos (Nat.le_refl 24)]
    have hup : UpTo 0 25 60 60 { s.currTime with hours := 24 } :=
      ⟨h.month_pos, h.month_le, h.day_pos, h.day_le, Nat.lt_succ_self 24, h.minutes_lt, h.seconds_lt⟩
    obtain ⟨hnext, hinst⟩ := carryDay_spec hup
    obtain ⟨hmonth, hinst'⟩ := carryMonth_spec hnext (by rwa [carryDay_year])
    have hcarried : carried s.currTime = { s.currTime with hours := 24 : RtcTime }.dateTime := by
      rw [carried, Nat.min_eq_right hge]
      rfl
    have hcurr : u.currTime = carryMonth (carryDay { s.currTime with hours := 24 }) := by
      rw [← hday]
      cases hstep
      simp [pitCallback, countSecond, carryMinute, carryHour, hseconds, hminutes, hticks, PIT_HZ]
    rw [hcurr, hcarried]
    exact ⟨(upTo_iff_valid _).mp hmonth, hinst'.trans hinst⟩

/-- The next eleven months do not reach into the second year after the reading. -/
theorem year_after {t : RtcTime} (h : DayValid t) {u : DateTime} (hu : Valid u) {k : Nat}
    (hinst : instant u = instant (carried t) + k) (hk : k < 335 * 86400) : u.year ≤ t.year + 1 := by
  refine hu.year_le ?_
  have hdays := h.year_days.2
  have hday : dayNumber { t.dateTime with hours := 0 } = dayNumber t.dateTime := rfl
  have hminutes := h.minutes_lt
  have hseconds := h.seconds_lt
  have hmin : min t.hours 24 ≤ 24 := Nat.min_le_right ..
  rw [hday] at hdays
  rw [hinst, carried, instant_hours]
  dsimp only at hdays hminutes hseconds ⊢
  change dayNumber t.dateTime < yearDays (t.year + 1) at hdays
  omega

/-- **The time after a number of ticks.** -/
theorem ticked_instant {s₀ s : PitState} {n k : Nat} (h : Ticked s₀ n k s) (hticks : s₀.ticks = 0)
    (hvalid : DayValid s₀.currTime) (hyear : s₀.currTime.year < 65534) (hn : n < 2 ^ 32)
    (hpos : 0 < n) : Valid s.currTime.dateTime ∧
      instant s.currTime.dateTime = instant (carried s₀.currTime) + k := by
  induction h with
  | boot => exact absurd hpos (Nat.lt_irrefl 0)
  | @tick n k s u calls h hstep ih =>
    obtain rfl | hpos := Nat.eq_zero_or_pos n
    · cases h
      obtain ⟨hu, hinst⟩ := firstTick_spec hstep hticks hvalid (by omega)
      have hcount : ¬ Counts s₀ := by
        rw [Counts, hticks]
        decide
      rw [if_neg hcount]
      exact ⟨hu, hinst⟩
    · obtain ⟨hs, hinst⟩ := ih (by omega) hpos
      have hk : k < 335 * 86400 := by
        have hk := (h.count hticks).2
        rw [Nat.div_eq_of_lt (by omega), Nat.mod_eq_of_lt (by omega), PIT_HZ] at hk
        omega
      have hafter : s.currTime.year ≤ s₀.currTime.year + 1 := year_after hvalid hs hinst hk
      have hnext := pitStep_spec hstep hs (by omega)
      exact ⟨hnext.1, by rw [hnext.2, hinst, Nat.add_assoc]⟩

theorem DayValid.fits {t : RtcTime} (h : DayValid t) (hhours : t.hours < 256)
    (hyear : t.year < 65536) : Fits t := by
  have hseconds := h.seconds_lt
  have hminutes := h.minutes_lt
  have hday := h.day_le.trans (monthLength_le _ _)
  have hmonth := h.month_le
  simp only [RtcTime.dateTime] at hseconds hminutes hday hmonth
  exact ⟨by omega, by omega, hhours, by omega, by omega, hyear⟩

/-- The time that `gettimeofday` stores is a valid one, `seconds` after the time `t`. -/
def Tells (m : Mem) (a : Nat) (t : DateTime) (seconds : Nat) : Prop :=
  Valid (loadTime m a).dateTime ∧ instant (loadTime m a).dateTime = instant t + seconds

/-- **The wall clock.**  `j` ticks after the chip was read, up to a full turn of the
counter, `sys_time` writes to the given structure alone, and what the process finds
there is the time of the chip at boot plus `j / PIT_HZ` seconds exactly if the chip
was read right. -/
theorem wall_clock_iff {cmos : Cmos} {n k rounds : Nat} {mode : Mode} {t : DateTime}
    (hquiet : QuietAt cmos n k) (hshows : Shows cmos (n + k + 1) mode t) (ht : Valid t)
    (hlo : 2000 ≤ t.year) (hhi : t.year < 2100) {s₀ s : PitState} {n' : Nat}
    (hread : rtcReadTime cmos rounds n = some (s₀.currTime, n')) (hticks : s₀.ticks = 0) {j i : Nat}
    (h : Ticked s₀ j i s) (hj : j < 2 ^ 32) (m : Mem) {regs : Registers}
    (hptr : valPtr regs.ebx RTC_TIME_SIZE = true) :
    (sysTime m regs s.currTime).2.eax = 0 ∧
      (∀ a, a < regs.ebx ∨ regs.ebx + RTC_TIME_SIZE ≤ a →
        (sysTime m regs s.currTime).1 a = m a) ∧
      (Tells (sysTime m regs s.currTime).1 regs.ebx t (j / PIT_HZ) ↔ HourRead mode t.hours) := by
  have hstore : sysTime m regs s.currTime =
      (storeTime m regs.ebx s.currTime, { regs with eax := 0 }) := by
    rw [sysTime, hptr]
    rfl
  have hcurr : s₀.currTime.dateTime = { t with hours := (readHour mode t.hours).toNat } := by
    rw [rtcReadTime_quiet hquiet hread]
    exact decode_fields hshows ht hlo hhi
  have hhours : s₀.currTime.hours = (readHour mode t.hours).toNat := congrArg DateTime.hours hcurr
  have hyear : s₀.currTime.year = t.year := congrArg DateTime.year hcurr
  have hlt := (readHour mode t.hours).isLt
  have hthours := ht.hours_lt
  have hvalid : DayValid s₀.currTime := by
    rw [DayValid, hcurr]
    exact ⟨ht.month_pos, ht.month_le, ht.day_pos, ht.day_le, Nat.zero_lt_succ 23, ht.minutes_lt,
      ht.seconds_lt⟩
  have hday : ∀ hours, dayNumber { t with hours } = dayNumber t := fun _ => rfl
  rw [hstore, ← readHour_iff mode ht.hours_lt, Tells]
  refine ⟨rfl, fun a ha => storeTime_outside m s.currTime ha, ?_⟩
  obtain rfl | hpos := Nat.eq_zero_or_pos j
  · cases h
    rw [loadTime_storeTime m regs.ebx (hvalid.fits (by omega) (by omega)), hcurr, Nat.zero_div,
      instant_hours, instant]
    constructor
    · rintro ⟨-, hinst⟩
      omega
    · intro heq
      rw [heq]
      exact ⟨ht, by omega⟩
  · obtain ⟨hs, hinst⟩ := ticked_instant h hticks hvalid (by omega) hj hpos
    have hi := (h.count hticks).2
    rw [Nat.div_eq_of_lt hj, Nat.mod_eq_of_lt hj, Nat.zero_mul, Nat.zero_add] at hi
    have hafter := year_after hvalid hs hinst (by rw [hi, PIT_HZ]; omega)
    have hday' : DayValid s.currTime :=
      ⟨hs.month_pos, hs.month_le, hs.day_pos, hs.day_le, Nat.zero_lt_succ 23, hs.minutes_lt,
        hs.seconds_lt⟩
    have hfits : Fits s.currTime := by
      have hlt : s.currTime.hours < 24 := hs.hours_lt
      have hle : s.currTime.year ≤ s₀.currTime.year + 1 := hafter
      exact hday'.fits (by omega) (by omega)
    have hcarried : instant (carried s₀.currTime) = dayNumber t * 86400 +
        min (readHour mode t.hours).toNat 24 * 3600 + t.minutes * 60 + t.seconds := by
      rw [carried, hcurr, hhours, instant_hours]
      rfl
    rw [loadTime_storeTime m regs.ebx hfits, hinst, hcarried, hi, instant]
    constructor
    · rintro ⟨-, heq⟩
      omega
    · intro heq
      exact ⟨hs, by omega⟩

/-- A chip with binary numbers and 24 hours, on a leap day. -/
def leapCmos : Cmos := fun _ reg =>
  if reg = RTC_REG_B then RTC_BINARY_MODE ||| RTC_24HR_MODE
  else if reg = RTC_SECONDS then 59
  else if reg = RTC_MINUTES then 59
  else if reg = RTC_HOURS then 23
  else if reg = RTC_DAY then 29
  else if reg = RTC_MONTH then 2
  else if reg = RTC_YEAR then 24
  else 0

theorem leapDay_told : ∃ i s, Ticked ⟨0, ⟨59, 59, 23, 29, 2, 2024⟩, false, false⟩ 1000 i s ∧
    Tells (sysTime (fun _ => 0) ⟨9, 0x1000, 0, 0⟩ s.currTime).1 0x1000 ⟨2024, 2, 29, 23, 59, 59⟩
      1 := by
  obtain ⟨i, s, h⟩ := ticked_exists ⟨0, ⟨59, 59, 23, 29, 2, 2024⟩, false, false⟩ 1000
  have hshows : Shows leapCmos 1 ⟨true, true⟩ ⟨2024, 2, 29, 23, 59, 59⟩ :=
    ⟨by decide, by decide, by decide⟩
  have hread : rtcReadTime leapCmos 1 0 = some (⟨59, 59, 23, 29, 2, 2024⟩, 8) := by decide
  have hptr : valPtr (Registers.mk 9 0x1000 0 0).ebx RTC_TIME_SIZE = true := by decide
  have hright := wall_clock_iff (n := 0) (k := 0) ⟨fun i hi => absurd hi (Nat.not_lt_zero i), by decide⟩
    hshows (by constructor <;> decide) (by decide) (by decide) hread rfl h (by decide) (fun _ => 0)
    hptr
  exact ⟨i, s, h, hright.2.2.mpr (by decide)⟩

end FrogKernel.WallClock
