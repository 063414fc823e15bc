import FrogKernel.Devices.Pit
import FrogKernel.Lib.Loops

/-!
# The clock chip (`devices/rtc/rtc.c`)

`rtc_read_time` waits until the chip is not about to change its registers, reads
them, and makes numbers of what it read.  The chip keeps a time in one of four
modes: its numbers are binary or decimal digits, its hours go to 24 or to 12.

Main result: `reading_iff`, in which modes and at which hours the time that was
read is the time of the chip.
-/

namespace FrogKernel.Rtc

open FrogKernel.Calendar FrogKernel.Loops
open FrogKernel.Pit (RtcTime)

abbrev Byte := BitVec 8

def RTC_SECONDS : Byte := 0x00
def RTC_MINUTES : Byte := 0x02
def RTC_HOURS : Byte := 0x04
def RTC_DAY : Byte := 0x07
def RTC_MONTH : Byte := 0x08
def RTC_YEAR : Byte := 0x09
def RTC_REG_A : Byte := 0x0a
def RTC_REG_B : Byte := 0x0b

def RTC_UIP_FLAG : Byte := 0x80
def RTC_BINARY_MODE : Byte := 0x04
def RTC_24HR_MODE : Byte := 0x02

/-- What the data port answers: `cmos n reg` is the `n`-th answer, if `reg` is
selected then. -/
abbrev Cmos := Nat → Byte → Byte

/-- `cmos_read`; the write to port `0x80` is a delay. -/
def cmosRead (cmos : Cmos) (n : Nat) (reg : Byte) : Byte := cmos n (reg &&& 0x7f)

def bcdToBinary (bcd : Byte) : Byte := (bcd >>> 4) * 10 + (bcd &&& 0x0f)

/-- The fields of `rtc_time_t` as bytes of the chip. -/
structure Fields where
  seconds : Byte
  minutes : Byte
  hours : Byte
  day : Byte
  month : Byte
  year : Byte
  deriving DecidableEq

def Fields.map (f : Byte → Byte) (t : Fields) : Fields where
  seconds := f t.seconds
  minutes := f t.minutes
  hours := f t.hours
  day := f t.day
  month := f t.month
  year := f t.year

/-- `while (cmos_read(RTC_REG_A) & RTC_UIP_FLAG)`, a round from the `n`-th answer on -/
def waitRound (cmos : Cmos) (n : Nat) : Option (Round Nat Nat) :=
  if cmosRead cmos n RTC_REG_A &&& RTC_UIP_FLAG ≠ 0 then some (.stay (n + 1))
  else some (.leave (n + 1))

/-- The six reads behind the loop. -/
def readFields (cmos : Cmos) (n : Nat) : Fields where
  seconds := cmosRead cmos n RTC_SECONDS
  minutes := cmosRead cmos (n + 1) RTC_MINUTES
  hours := cmosRead cmos (n + 2) RTC_HOURS
  day := cmosRead cmos (n + 3) RTC_DAY
  month := cmosRead cmos (n + 4) RTC_MONTH
  year := cmosRead cmos (n + 5) RTC_YEAR

/-- What `rtc_read_time` makes of the fields and of register B. -/
def decode (t : Fields) (regB : Byte) : RtcTime :=
  let t := if regB &&& RTC_BINARY_MODE = 0 then t.map bcdToBinary else t
  let hours := if regB &&& RTC_24HR_MODE = 0 ∧ t.hours &&& 0x80 ≠ 0 then
      ((t.hours &&& 0x7f) + 12) % 24
    else t.hours
  { seconds := t.seconds.toNat
    minutes := t.minutes.toNat
    hours := hours.toNat
    day := t.day.toNat
    month := t.month.toNat
    year := t.year.toNat + 2000 }

/-- `rtc_read_time`, with at most `rounds` rounds of its loop, and the number of
the next answer. -/
def rtcReadTime (cmos : Cmos) (rounds n : Nat) : Option (RtcTime × Nat) :=
  (loop (waitRound cmos) rounds n).map fun n =>
    (decode (readFields cmos n) (cmosRead cmos (n + 6) RTC_REG_B), n + 7)

/-! ## The chip -/

/-- The bits of register B. -/
structure Mode where
  binary : Bool
  hours24 : Bool

/-- A number below 100 in a register. -/
def Mode.digits (mode : Mode) (v : Nat) : Byte :=
  BitVec.ofNat 8 (if mode.binary then v else v / 10 * 16 + v % 10)

/-- An hour in its register.  On a clock with 12 hours noon and midnight are 12,
and the top bit stands for the afternoon. -/
def Mode.hour (mode : Mode) (h : Nat) : Byte :=
  if mode.hours24 then mode.digits h
  else mode.digits ((h + 11) % 12 + 1) ||| if h < 12 then 0 else 0x80

/-- The registers that show a time. -/
def Mode.fields (mode : Mode) (t : DateTime) : Fields where
  seconds := mode.digits t.seconds
  minutes := mode.digits t.minutes
  hours := mode.hour t.hours
  day := mode.digits t.day
  month := mode.digits t.month
  year := mode.digits (t.year - 2000)

/-- The chip shows a time: for as long as the answers from the `n`-th on take,
its registers stand still. -/
structure Shows (cmos : Cmos) (n : Nat) (mode : Mode) (t : DateTime) : Prop where
  fields : readFields cmos n = mode.fields t
  binary : cmosRead cmos (n + 6) RTC_REG_B &&& RTC_BINARY_MODE ≠ 0 ↔ mode.binary = true
  hours24 : cmosRead cmos (n + 6) RTC_REG_B &&& RTC_24HR_MODE ≠ 0 ↔ mode.hours24 = true

/-- The update of the registers is over when the `k`-th answer from `n` on is read. -/
structure QuietAt (cmos : Cmos) (n k : Nat) : Prop where
  busy : ∀ i < k, cmosRead cmos (n + i) RTC_REG_A &&& RTC_UIP_FLAG ≠ 0
  quiet : cmosRead cmos (n + k) RTC_REG_A &&& RTC_UIP_FLAG = 0

/-! ## Waiting -/

theorem QuietAt.tail {cmos : Cmos} {n k : Nat} (h : QuietAt cmos n (k + 1)) :
    QuietAt cmos (n + 1) k := by
  have hshift : ∀ i, n + 1 + i = n + (i + 1) := fun i => by omega
  refine ⟨fun i hi => ?_, ?_⟩
  · rw [hshift]
    exact h.busy (i + 1) (by omega)
  · rw [hshift]
    exact h.quiet

theorem wait_quiet {cmos : Cmos} {n k rounds : Nat} (h : QuietAt cmos n k) (hk : k < rounds) :
    loop (waitRound cmos) rounds n = some (n + k + 1) := by
  induction k generalizing n rounds with
  | zero =>
    obtain ⟨rounds, rfl⟩ : ∃ r, rounds = r + 1 := ⟨rounds - 1, by omega⟩
    apply loop_leave
    exact if_neg (not_not.mpr h.quiet)
  | succ k ih =>
    obtain ⟨rounds, rfl⟩ : ∃ r, rounds = r + 1 := ⟨rounds - 1, by omega⟩
    have hstay : Stays (waitRound cmos) n (n + 1) := if_pos (h.busy 0 (by omega))
    rw [loop_stay hstay, ih h.tail (by omega)]
    congr 1
    omega

/-! ## Digits -/

theorem bcdToBinary_digits : ∀ v < 100,
    bcdToBinary (BitVec.ofNat 8 (v / 10 * 16 + v % 10)) = BitVec.ofNat 8 v := by
  decide

theorem toNat_ofNat_small {v : Nat} (hv : v < 100) : (BitVec.ofNat 8 v).toNat = v := by
  rw [BitVec.toNat_ofNat]
  omega

/-- A number comes back from a register, in both modes. -/
theorem digits_toNat (mode : Mode) {v : Nat} (hv : v < 100) :
    (if mode.binary then mode.digits v else bcdToBinary (mode.digits v)).toNat = v := by
  cases hmode : mode.binary with
  | true => simpa [Mode.digits, hmode] using toNat_ofNat_small hv
  | false => simpa [Mode.digits, hmode, bcdToBinary_digits v hv] using toNat_ofNat_small hv

/-- The modes and hours that `rtc_read_time` gets right: noon and midnight are
twelve on a clock with 12 hours, and the digits of an hour do not mind the top
bit. -/
def HourRead (mode : Mode) (h : Nat) : Prop :=
  mode.hours24 = true ∨ h % 12 ≠ 0 ∧ (mode.binary = true ∨ h < 12)

instance (mode : Mode) (h : Nat) : Decidable (HourRead mode h) :=
  inferInstanceAs (Decidable (_ ∨ _))

/-- The hour that is read. -/
def readHour (mode : Mode) (h : Nat) : Byte :=
  let hours := if mode.binary then mode.hour h else bcdToBinary (mode.hour h)
  if mode.hours24 = false ∧ hours &&& 0x80 ≠ 0 then ((hours &&& 0x7f) + 12) % 24 else hours

theorem readHour_iff (mode : Mode) {h : Nat} (hh : h < 24) :
    (readHour mode h).toNat = h ↔ HourRead mode h := by
  obtain ⟨binary, hours24⟩ := mode
  have hall : ∀ binary hours24, ∀ h < 24,
      (readHour ⟨binary, hours24⟩ h).toNat = h ↔ HourRead ⟨binary, hours24⟩ h := by
    decide
  exact hall binary hours24 h hh

/-! ## The time that is read -/

/-- The time that `rtc_read_time` makes of the registers of a time. -/
theorem decode_fields {cmos : Cmos} {n : Nat} {mode : Mode} {t : DateTime}
    (h : Shows cmos n mode t) (ht : Valid t) (hlo : 2000 ≤ t.year) (hhi : t.year < 2100) :
    (decode (readFields cmos n) (cmosRead cmos (n + 6) RTC_REG_B)).dateTime =
      { t with hours := (readHour mode t.hours).toNat } := by
  have hday := ht.day_le.trans (monthLength_le t.year t.month)
  have hmonth := ht.month_le
  have hminutes := ht.minutes_lt
  have hseconds := ht.seconds_lt
  have hyear := digits_toNat mode (v := t.year - 2000) (by omega)
  have hday := digits_toNat mode (v := t.day) (by omega)
  have hmonth := digits_toNat mode (v := t.month) (by omega)
  have hminutes := digits_toNat mode (v := t.minutes) (by omega)
  have hseconds := digits_toNat mode (v := t.seconds) (by omega)
  have hbinary := h.binary
  have hhours := h.hours24
  rw [h.fields]
  generalize cmosRead cmos (n + 6) RTC_REG_B = regB at hbinary hhours ⊢
  have hzero : regB &&& RTC_24HR_MODE = 0 ↔ mode.hours24 = false := by
    rw [← Bool.not_eq_true, ← hhours, not_not]
  have hmode : regB &&& RTC_BINARY_MODE = 0 ↔ mode.binary = false := by
    rw [← Bool.not_eq_true, ← hbinary, not_not]
  cases hb : mode.binary with
  | true =>
    simp only [hb, ↓reduceIte, Bool.true_eq_false] at hyear hday hmonth hminutes hseconds hmode
    simp only [decode, hmode, ↓reduceIte, Mode.fields, RtcTime.dateTime, readHour, hb, hzero, hyear,
      hday, hmonth, hminutes, hseconds]
    congr 1
    omega
  | false =>
    simp only [hb, Bool.false_eq_true, ↓reduceIte] at hyear hday hmonth hminutes hseconds hmode
    simp only [decode, hmode, ↓reduceIte, Mode.fields, Fields.map, RtcTime.dateTime, readHour, hb,
      hzero, hyear, hday, hmonth, hminutes, hseconds, Bool.false_eq_true]
    congr 1
    omega

/-- The result does not depend on the number of rounds. -/
theorem rtcReadTime_quiet {cmos : Cmos} {n k rounds n' : Nat} {u : RtcTime}
    (hquiet : QuietAt cmos n k) (h : rtcReadTime cmos rounds n = some (u, n')) :
    u = decode (readFields cmos (n + k + 1)) (cmosRead cmos (n + k + 1 + 6) RTC_REG_B) := by
  obtain ⟨next, hloop, hresult⟩ := Option.map_eq_some_iff.mp h
  have hmore := loop_mono hloop (Nat.le_max_left rounds (k + 1))
  rw [wait_quiet hquiet (by omega)] at hmore
  cases hmore
  exact (congrArg Prod.fst hresult).symm

/-- **Reading the chip.**  Once the registers are quiet, `rtc_read_time` ends, and
it has read the time of the chip exactly if the hours go to 24, or it is neither
noon nor midnight and an hour in digits is before noon. -/
theorem reading_iff {cmos : Cmos} {n k : Nat} {mode : Mode} {t : DateTime}
    (hquiet : QuietAt cmos n k) (h : Shows cmos (n + k + 1) mode t) (ht : Valid t)
    (hlo : 2000 ≤ t.year) (hhi : t.year < 2100) :
    ∃ u, (∀ rounds > k, rtcReadTime cmos rounds n = some (u, n + k + 8)) ∧
      (u.dateTime = t ↔ HourRead mode t.hours) := by
  refine ⟨_, fun rounds hrounds => by rw [rtcReadTime, wait_quiet hquiet hrounds]; rfl, ?_⟩
  rw [decode_fields h ht hlo hhi, ← readHour_iff mode ht.hours_lt]
  constructor
  · intro heq
    exact congrArg DateTime.hours heq
  · intro heq
    rw [heq]

/-- A chip that is busy for one answer, then shows New Year's Eve at half past
eleven at night, in digits and with 12 hours. -/
def eveningCmos : Cmos := fun n reg =>
  if reg = RTC_REG_A then if n = 0 then RTC_UIP_FLAG else 0
  else if reg = RTC_SECONDS then 0x59
  else if reg = RTC_MINUTES then 0x30
  else if reg = RTC_HOURS then 0x91
  else if reg = RTC_DAY then 0x31
  else if reg = RTC_MONTH then 0x12
  else if reg = RTC_YEAR then 0x25
  else 0

theorem evening_misread : ∃ u, (∀ rounds > 1, rtcReadTime eveningCmos rounds 0 = some (u, 9)) ∧
    u.dateTime ≠ ⟨2025, 12, 31, 23, 30, 59⟩ := by
  have hshows : Shows eveningCmos 2 ⟨false, false⟩ ⟨2025, 12, 31, 23, 30, 59⟩ :=
    ⟨by decide, by decide, by decide⟩
  obtain ⟨u, hread, hiff⟩ := reading_iff (n := 0) (k := 1) ⟨by decide, by decide⟩ hshows
    (by constructor <;> decide) (by decide) (by decide)
  exact ⟨u, hread, fun heq => absurd (hiff.mp heq) (by decide)⟩

end FrogKernel.Rtc
