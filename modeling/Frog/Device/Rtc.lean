import Frog.Lib.Prog
import Mathlib.Algebra.BigOperators.Intervals
import Mathlib.Tactic.IntervalCases

/-!
# The real time clock

`read_rtc` of `core/device/cmos.c`. The clock chip is what the reads of its registers give, access
after access.
-/

namespace Frog.Rtc

set_option autoImplicit false
open Prog

abbrev Byte := BitVec 8
abbrev Word := BitVec 32

/-! ## Seconds -/

/-- The days that the loop adds for a year. -/
def yearDays (years : Int) : Word :=
  365 + if years % 4 = 0 ∧ (years % 100 = 0 → years % 400 = 0) then 1 else 0

def daysDown (years : Int) (days : Word) : Word :=
  if 1969 < years then daysDown (years - 1) (days + yearDays years) else days
termination_by (years - 1969).toNat
decreasing_by omega

/-- `secs_of_years` -/
def secsOfYears (years : Int) : Word := daysDown (years + 2000) 0 * 86400

/-- What the case of a month adds. -/
def caseDays (year : Int) : Nat → Word
  | 2 => 28 + if year % 4 = 0 ∧ (year % 100 ≠ 0 ∨ year % 400 = 0) then 1 else 0
  | 4 | 6 | 9 | 11 => 30
  | _ => 31

/-- From the case of a month the code falls through to the first one. -/
def fallThrough (year : Int) : Nat → Word
  | 0 => 0
  | month + 1 => caseDays year (month + 1) + fallThrough year month

def secsOfMonth (months year : Int) : Word :=
  if 1 ≤ months ∧ months ≤ 11 then fallThrough (year + 2000) months.toNat * 86400 else 0

/-! ## Registers -/

def RTC_SEC_REG : Byte := 0x00
def RTC_MIN_REG : Byte := 0x02
def RTC_HOUR_REG : Byte := 0x04
def RTC_DAY_REG : Byte := 0x07
def RTC_MONTH_REG : Byte := 0x08
def RTC_YEAR_REG : Byte := 0x09
def RTC_B_REG : Byte := 0x0B

abbrev Cmos := Nat → Byte → Byte

/-- A loop that needs more fuel. -/
inductive Stop where
  | hang

/-- The state counts the accesses. -/
abbrev M := Prog Stop Nat

def getRtcRegister (cmos : Cmos) (reg : Byte) : M Byte := do
  let n ← get
  modify (· + 1)
  pure (cmos n reg)

def getUpdateInProgressFlag (cmos : Cmos) : M Byte := do
  let a ← getRtcRegister cmos 0x0A
  pure (a &&& 0x80)

def waitUpdate (cmos : Cmos) : Nat → M Unit
  | 0 => stop .hang
  | fuel + 1 => do
    let flag ← getUpdateInProgressFlag cmos
    if flag ≠ 0 then waitUpdate cmos fuel

structure Regs where
  second : Byte
  minute : Byte
  hour : Byte
  day : Byte
  month : Byte
  year : Byte
  deriving DecidableEq

def readRegs (cmos : Cmos) : M Regs := do
  let second ← getRtcRegister cmos RTC_SEC_REG
  let minute ← getRtcRegister cmos RTC_MIN_REG
  let hour ← getRtcRegister cmos RTC_HOUR_REG
  let day ← getRtcRegister cmos RTC_DAY_REG
  let month ← getRtcRegister cmos RTC_MONTH_REG
  let year ← getRtcRegister cmos RTC_YEAR_REG
  pure ⟨second, minute, hour, day, month, year⟩

/-- Read until two readings in a row are the same. -/
def readAgain (cmos : Cmos) (waits : Nat) : Nat → Regs → M Regs
  | 0, _ => stop .hang
  | fuel + 1, last => do
    waitUpdate cmos waits
    let regs ← readRegs cmos
    if last ≠ regs then readAgain cmos waits fuel regs else pure regs

/-! ## Conversion -/

def unpack (x : Byte) : Byte := (x &&& 0x0F) + x / 16 * 10

/-- BCD values are converted; the flag of the hour is kept. -/
def toBinary (registerB : Byte) (r : Regs) : Regs :=
  if registerB &&& 0x04 = 0 then
    { second := unpack r.second
      minute := unpack r.minute
      hour := ((r.hour &&& 0x0F) + (r.hour &&& 0x70) / 16 * 10) ||| (r.hour &&& 0x80)
      day := unpack r.day
      month := unpack r.month
      year := unpack r.year }
  else r

def to24 (registerB hour : Byte) : Byte :=
  if registerB &&& 0x02 = 0 ∧ hour &&& 0x80 ≠ 0 then ((hour &&& 0x7F) + 12) % 24 else hour

def secsOf (r : Regs) : Word :=
  let year : Word := r.year.setWidth 32
  secsOfYears (year - 1).toInt +
    secsOfMonth (r.month.toNat - 1) year.toInt +
    (r.day.setWidth 32 - 1) * 86400 +
    r.hour.setWidth 32 * 3600 +
    r.minute.setWidth 32 * 60 +
    r.second.setWidth 32

def convert (registerB : Byte) (r : Regs) : Word :=
  let r := toBinary registerB r
  secsOf { r with hour := to24 registerB r.hour }

def readRtc (cmos : Cmos) (fuel : Nat) : M Word := do
  waitUpdate cmos fuel
  let first ← readRegs cmos
  let regs ← readAgain cmos fuel fuel first
  let registerB ← getRtcRegister cmos RTC_B_REG
  pure (convert registerB regs)

/-! ## The calendar -/

def IsLeap (year : Nat) : Prop := year % 4 = 0 ∧ (year % 100 ≠ 0 ∨ year % 400 = 0)

instance (year : Nat) : Decidable (IsLeap year) := inferInstanceAs (Decidable (_ ∧ _))

def daysInYear (year : Nat) : Nat := if IsLeap year then 366 else 365

def daysInMonth (year : Nat) : Nat → Nat
  | 2 => if IsLeap year then 29 else 28
  | 4 | 6 | 9 | 11 => 30
  | _ => 31

/-- A second of the years 2000 to 2099. -/
structure Date where
  year : Nat
  month : Nat
  day : Nat
  hour : Nat
  minute : Nat
  second : Nat
  year_range : 2000 ≤ year ∧ year ≤ 2099
  month_range : 1 ≤ month ∧ month ≤ 12
  day_range : 1 ≤ day ∧ day ≤ daysInMonth year month
  hour_lt : hour < 24
  minute_lt : minute < 60
  second_lt : second < 60

/-- The days since 1970. -/
def Date.days (d : Date) : Nat :=
  (∑ i ∈ Finset.range (d.year - 1970), daysInYear (1970 + i)) +
    (∑ i ∈ Finset.range (d.month - 1), daysInMonth d.year (i + 1)) + (d.day - 1)

/-- The time of the day. -/
def Date.secs (d : Date) : Nat := d.hour * 3600 + d.minute * 60 + d.second

def Date.timestamp (d : Date) : Nat := d.days * 86400 + d.secs

/-- A value in a register: binary, or two digits of four bits. -/
def encode (registerB : Byte) (n : Nat) : Byte :=
  if registerB &&& 0x04 = 0 then BitVec.ofNat 8 (n / 10 * 16 + n % 10) else BitVec.ofNat 8 n

/-- Twelve-hour clocks count from 12 to 11, and have a flag in the afternoon. -/
def encodeHour (registerB : Byte) (hour : Nat) : Byte :=
  if registerB &&& 0x02 = 0 then
    encode registerB (if hour % 12 = 0 then 12 else hour % 12) ||| if hour < 12 then 0 else 0x80
  else encode registerB hour

def Date.registers (registerB : Byte) (d : Date) : Regs where
  second := encode registerB d.second
  minute := encode registerB d.minute
  hour := encodeHour registerB d.hour
  day := encode registerB d.day
  month := encode registerB d.month
  year := encode registerB (d.year - 2000)

/-! ## Years and months -/

/-- Both functions test for a leap year. -/
theorem leap_iff (year : Nat) :
    ((year : Int) % 4 = 0 ∧ ((year : Int) % 100 = 0 → (year : Int) % 400 = 0) ↔ IsLeap year) ∧
      ((year : Int) % 4 = 0 ∧ ((year : Int) % 100 ≠ 0 ∨ (year : Int) % 400 = 0) ↔ IsLeap year) := by
  unfold IsLeap
  omega

theorem yearDays_eq (year : Nat) : yearDays year = BitVec.ofNat 32 (daysInYear year) := by
  unfold yearDays daysInYear
  by_cases h : IsLeap year
  · rw [if_pos h, if_pos ((leap_iff year).1.mpr h)]
    rfl
  · rw [if_neg h, if_neg (fun h' => h ((leap_iff year).1.mp h'))]
    rfl

/-- The loop counts the years down to 1970. -/
theorem daysDown_eq (n : Nat) (days : Word) : daysDown ((1970 + n : Nat) - 1) days =
    days + BitVec.ofNat 32 (∑ i ∈ Finset.range n, daysInYear (1970 + i)) := by
  induction n generalizing days with
  | zero =>
    rw [daysDown, if_neg (by omega), Finset.sum_range_zero]
    exact (BitVec.add_zero days).symm
  | succ n ih =>
    have hyear : ((1970 + (n + 1) : Nat) : Int) - 1 = (1970 + n : Nat) := by omega
    rw [daysDown, hyear, if_pos (by omega), ih, yearDays_eq, Finset.sum_range_succ, BitVec.add_assoc,
      BitVec.ofNat_add_ofNat, Nat.add_comm (daysInYear _)]

theorem secsOfYears_eq {year : Nat} (h : 1970 ≤ year) : secsOfYears ((year : Int) - 2000 - 1) =
    BitVec.ofNat 32 ((∑ i ∈ Finset.range (year - 1970), daysInYear (1970 + i)) * 86400) := by
  have hyear : (year : Int) - 2000 - 1 + 2000 = (1970 + (year - 1970) : Nat) - 1 := by omega
  rw [secsOfYears, hyear, daysDown_eq, zero_add]
  exact BitVec.ofNat_mul_ofNat ..

theorem caseDays_eq (year month : Nat) :
    caseDays year month = BitVec.ofNat 32 (daysInMonth year month) := by
  unfold caseDays daysInMonth
  split
  · by_cases h : IsLeap year
    · rw [if_pos h, if_pos ((leap_iff year).2.mpr h)]
      rfl
    · rw [if_neg h, if_neg (fun h' => h ((leap_iff year).2.mp h'))]
      rfl
  · rfl
  · rfl
  · rfl
  · rfl
  · rfl

theorem fallThrough_eq (year n : Nat) : fallThrough year n =
    BitVec.ofNat 32 (∑ i ∈ Finset.range n, daysInMonth year (i + 1)) := by
  induction n with
  | zero => rfl
  | succ n ih =>
    rw [fallThrough, ih, caseDays_eq, Finset.sum_range_succ, BitVec.ofNat_add_ofNat, Nat.add_comm]

theorem secsOfMonth_eq {year month : Nat} (hlo : 1 ≤ month) (hhi : month ≤ 12) :
    secsOfMonth ((month : Int) - 1) ((year : Int) - 2000) =
      BitVec.ofNat 32 ((∑ i ∈ Finset.range (month - 1), daysInMonth year (i + 1)) * 86400) := by
  have hyear : (year : Int) - 2000 + 2000 = year := by omega
  have hmonth : ((month : Int) - 1).toNat = month - 1 := by omega
  unfold secsOfMonth
  rw [hyear, hmonth, fallThrough_eq]
  split
  · exact BitVec.ofNat_mul_ofNat ..
  · have hzero : month - 1 = 0 := by omega
    rw [hzero, Finset.sum_range_zero, Nat.zero_mul]
    rfl

/-! ## No wrap -/

theorem daysInYear_le (year : Nat) : daysInYear year ≤ 366 := by
  unfold daysInYear
  split <;> decide

theorem daysInMonth_le (year month : Nat) : daysInMonth year month ≤ 31 := by
  unfold daysInMonth
  repeat' split
  all_goals decide

theorem sum_le {f : Nat → Nat} {b : Nat} (n : Nat) (h : ∀ i, f i ≤ b) :
    ∑ i ∈ Finset.range n, f i ≤ n * b := by
  have hle := Finset.sum_le_card_nsmul (Finset.range n) f b fun i _ => h i
  rwa [Finset.card_range, smul_eq_mul] at hle

namespace Date
variable {d : Date} {registerB : Byte}

theorem days_le (d : Date) : d.days ≤ 48000 := by
  have hyears := sum_le (d.year - 1970) fun i => daysInYear_le (1970 + i)
  have hmonths := sum_le (d.month - 1) fun i => daysInMonth_le d.year (i + 1)
  have hmonth := daysInMonth_le d.year d.month
  have hyear := d.year_range
  have hrange := d.month_range
  have hday := d.day_range
  unfold days
  omega

theorem timestamp_lt (d : Date) : d.timestamp < 2 ^ 32 := by
  have hdays := d.days_le
  have hhour := d.hour_lt
  have hminute := d.minute_lt
  have hsecond := d.second_lt
  unfold timestamp secs
  omega

end Date

/-! ## Encodings -/

theorem unpack_digits :
    ∀ n : Fin 100, unpack (BitVec.ofNat 8 (n / 10 * 16 + n % 10)) = BitVec.ofNat 8 n := by
  decide

/-- Unpacking the hour keeps the flag. -/
theorem unpack_hour : ∀ n : Fin 24, ∀ flag ∈ [0, (0x80 : Byte)],
    let hour := BitVec.ofNat 8 (n / 10 * 16 + n % 10) ||| flag
    ((hour &&& 0x0F) + (hour &&& 0x70) / 16 * 10) ||| (hour &&& 0x80) = BitVec.ofNat 8 n ||| flag := by
  decide

/-- The hour and its flag as a binary clock has them. -/
def binaryHour (registerB : Byte) (hour : Nat) : Byte :=
  if registerB &&& 0x02 = 0 then
    BitVec.ofNat 8 (if hour % 12 = 0 then 12 else hour % 12) ||| if hour < 12 then 0 else 0x80
  else BitVec.ofNat 8 hour

/-- The hour that the code makes of an hour. -/
def shownHour (registerB : Byte) (hour : Nat) : Nat :=
  if registerB &&& 0x02 = 0 ∧ hour % 12 = 0 then 12 - hour else hour

theorem unpack_encodeHour {registerB : Byte} {hour : Nat} (hbcd : registerB &&& 0x04 = 0)
    (hlt : hour < 24) :
    ((encodeHour registerB hour &&& 0x0F) + (encodeHour registerB hour &&& 0x70) / 16 * 10) |||
      (encodeHour registerB hour &&& 0x80) = binaryHour registerB hour := by
  have h12 : (if hour % 12 = 0 then 12 else hour % 12) < 24 := by
    split <;> omega
  have hflag : (if hour < 12 then 0 else (0x80 : Byte)) ∈ [0, (0x80 : Byte)] := by
    split <;> decide
  unfold encodeHour encode binaryHour
  rw [if_pos hbcd, if_pos hbcd]
  split
  · exact unpack_hour ⟨_, h12⟩ _ hflag
  · have hkeep := unpack_hour ⟨hour, hlt⟩ 0 (by decide)
    have hzero : ∀ x : Byte, x ||| 0 = x := fun _ => BitVec.or_zero
    simpa only [hzero] using hkeep

theorem toBinary_registers (d : Date) (registerB : Byte) : toBinary registerB (d.registers registerB) =
    { second := BitVec.ofNat 8 d.second
      minute := BitVec.ofNat 8 d.minute
      hour := binaryHour registerB d.hour
      day := BitVec.ofNat 8 d.day
      month := BitVec.ofNat 8 d.month
      year := BitVec.ofNat 8 (d.year - 2000) } := by
  have hmonth := d.month_range
  have hyear := d.year_range
  have hday : d.day < 100 := by
    have hle := daysInMonth_le d.year d.month
    have hrange := d.day_range
    omega
  have hdigits : ∀ {n : Nat}, n < 100 → registerB &&& 0x04 = 0 →
      unpack (encode registerB n) = BitVec.ofNat 8 n := by
    intro n hn hbcd
    unfold encode
    rw [if_pos hbcd]
    exact unpack_digits ⟨n, hn⟩
  unfold toBinary Date.registers
  by_cases hbcd : registerB &&& 0x04 = 0
  · rw [if_pos hbcd]
    have hsecond := hdigits (Nat.lt_trans d.second_lt (by decide)) hbcd
    have hminute := hdigits (Nat.lt_trans d.minute_lt (by decide)) hbcd
    rw [hsecond, hminute, hdigits hday hbcd, hdigits (n := d.month) (by omega) hbcd,
      hdigits (n := d.year - 2000) (by omega) hbcd, unpack_encodeHour hbcd d.hour_lt]
  · rw [if_neg hbcd]
    unfold encodeHour encode binaryHour
    simp only [if_neg hbcd]

/-- Noon becomes midnight and midnight noon. -/
theorem to24_binaryHour {registerB : Byte} {hour : Nat} (hlt : hour < 24) :
    to24 registerB (binaryHour registerB hour) = BitVec.ofNat 8 (shownHour registerB hour) := by
  unfold to24 binaryHour shownHour
  by_cases h12 : registerB &&& 0x02 = 0
  · simp only [h12, true_and, if_true]
    interval_cases hour <;> rfl
  · simp only [h12, false_and, if_false]

theorem widen {n : Nat} (h : n < 256) : (BitVec.ofNat 8 n).setWidth 32 = BitVec.ofNat 32 n :=
  BitVec.setWidth_ofNat_of_le_of_lt (by decide) h

theorem year_toInt : ∀ n : Fin 100, (BitVec.ofNat 32 n).toInt = (n : Nat) ∧
    (BitVec.ofNat 32 n - 1).toInt = ((n : Nat) : Int) - 1 := by
  decide

theorem convert_registers (d : Date) (registerB : Byte) : convert registerB (d.registers registerB) =
    BitVec.ofNat 32 (d.days * 86400 +
      (shownHour registerB d.hour * 3600 + d.minute * 60 + d.second)) := by
  have hyear := d.year_range
  have hmonth := d.month_range
  have hminute := d.minute_lt
  have hsecond := d.second_lt
  have hday : d.day < 256 := by
    have hle := daysInMonth_le d.year d.month
    have hrange := d.day_range
    omega
  have hhour : shownHour registerB d.hour < 256 := by
    have hlt := d.hour_lt
    unfold shownHour
    split <;> omega
  obtain ⟨hthis, hlast⟩ := year_toInt ⟨d.year - 2000, by omega⟩
  have hcast : ((d.year - 2000 : Nat) : Int) = (d.year : Int) - 2000 := by omega
  have hmonthNat : (BitVec.ofNat 8 d.month).toNat = d.month :=
    Nat.mod_eq_of_lt (by omega)
  have hdayBefore : BitVec.ofNat 32 d.day - 1 = BitVec.ofNat 32 (d.day - 1) :=
    BitVec.ofNat_sub_ofNat_of_le _ _ (by decide) d.day_range.1
  unfold convert secsOf
  rw [toBinary_registers]
  simp only
  rw [to24_binaryHour d.hour_lt, widen hhour, widen hday, widen (n := d.minute) (by omega),
    widen (n := d.second) (by omega), widen (n := d.year - 2000) (by omega), hthis, hlast, hcast,
    hmonthNat, hdayBefore, secsOfYears_eq (by omega), secsOfMonth_eq hmonth.1 hmonth.2]
  change _ + _ + BitVec.ofNat 32 (d.day - 1) * BitVec.ofNat 32 86400 +
    BitVec.ofNat 32 (shownHour registerB d.hour) * BitVec.ofNat 32 3600 +
    BitVec.ofNat 32 d.minute * BitVec.ofNat 32 60 + BitVec.ofNat 32 d.second = _
  simp only [BitVec.ofNat_mul_ofNat, BitVec.ofNat_add_ofNat]
  apply congrArg (BitVec.ofNat 32)
  unfold Date.days
  omega

/-- The code converts all times but those from midnight to one and from noon to one on a twelve-hour
clock. -/
theorem convert_iff (d : Date) (registerB : Byte) :
    (convert registerB (d.registers registerB)).toNat = d.timestamp ↔
      registerB &&& 0x02 ≠ 0 ∨ d.hour % 12 ≠ 0 := by
  have hlt := d.timestamp_lt
  have hdays := d.days_le
  have hhour := d.hour_lt
  have hminute := d.minute_lt
  have hsecond := d.second_lt
  unfold Date.timestamp Date.secs at *
  rw [convert_registers, BitVec.toNat_ofNat]
  unfold shownHour
  by_cases hwrong : registerB &&& 0x02 = 0 ∧ d.hour % 12 = 0
  · rw [if_pos hwrong]
    constructor
    · omega
    · intro hright
      rcases hright with h24 | hhour
      · exact absurd hwrong.1 h24
      · exact absurd hwrong.2 hhour
  · rw [if_neg hwrong]
    constructor
    · intro _
      tauto
    · intro _
      exact Nat.mod_eq_of_lt hlt

/-! ## The loop -/

variable {cmos : Cmos} {n k m waits fuel : Nat} {r last first : Regs}

/-- The registers as the accesses from `n` on read them. -/
def regsFrom (cmos : Cmos) (n : Nat) : Regs where
  second := cmos n RTC_SEC_REG
  minute := cmos (n + 1) RTC_MIN_REG
  hour := cmos (n + 2) RTC_HOUR_REG
  day := cmos (n + 3) RTC_DAY_REG
  month := cmos (n + 4) RTC_MONTH_REG
  year := cmos (n + 5) RTC_YEAR_REG

/-- From the access `n` on the update is over at once or after a while, and the reading gives `r`. -/
def Reading (cmos : Cmos) (n : Nat) (r : Regs) (m : Nat) : Prop :=
  ∃ w, (∀ i, i < w → cmos (n + i) 0x0A &&& 0x80 ≠ 0) ∧ cmos (n + w) 0x0A &&& 0x80 = 0 ∧
    r = regsFrom cmos (n + w + 1) ∧ m = n + w + 7

/-- The readings after `last` are all different from the one before, but the final one, `r`. -/
inductive Agreed (cmos : Cmos) : Regs → Nat → Regs → Nat → Prop
  | same {r : Regs} {n m : Nat} : Reading cmos n r m → Agreed cmos r n r m
  | again {last next r : Regs} {n k m : Nat} : Reading cmos n next k → last ≠ next →
    Agreed cmos next k r m → Agreed cmos last n r m

theorem waitUpdate_over (w : Nat) (hbusy : ∀ i, i < w → cmos (n + i) 0x0A &&& 0x80 ≠ 0)
    (hover : cmos (n + w) 0x0A &&& 0x80 = 0) (hfuel : w < fuel) :
    waitUpdate cmos fuel n = .ok ((), n + w + 1) := by
  induction w generalizing n fuel with
  | zero =>
    obtain ⟨fuel, rfl⟩ := Nat.exists_eq_succ_of_ne_zero (Nat.pos_iff_ne_zero.mp hfuel)
    have hnow : cmos n 0x0A &&& 0x80 = 0 := hover
    change (if cmos n 0x0A &&& 0x80 ≠ 0 then waitUpdate cmos fuel else pure ()) (n + 1) = _
    rw [if_neg (not_not.mpr hnow)]
    rfl
  | succ w ih =>
    obtain ⟨fuel, rfl⟩ := Nat.exists_eq_succ_of_ne_zero (Nat.pos_iff_ne_zero.mp (Nat.zero_lt_of_lt hfuel))
    have hnow : cmos n 0x0A &&& 0x80 ≠ 0 := hbusy 0 (Nat.succ_pos w)
    change (if cmos n 0x0A &&& 0x80 ≠ 0 then waitUpdate cmos fuel else pure ()) (n + 1) = _
    rw [if_pos hnow]
    have hrest : waitUpdate cmos fuel (n + 1) = .ok ((), n + 1 + w + 1) := by
      apply ih
      · intro i hi
        rw [Nat.add_assoc, Nat.add_comm 1]
        exact hbusy (i + 1) (Nat.succ_lt_succ hi)
      · rw [Nat.add_assoc, Nat.add_comm 1]
        exact hover
      · exact Nat.lt_of_succ_lt_succ hfuel
    rw [hrest, Nat.add_right_comm n 1 w, Nat.add_assoc n w 1]

/-- A reading takes as much fuel as it waits. -/
theorem Reading.run {α : Type} (h : Reading cmos n r m) (hfuel : m ≤ n + fuel) (f : Regs → M α) :
    (waitUpdate cmos fuel >>= fun _ => readRegs cmos >>= f) n = f r m := by
  obtain ⟨w, hbusy, hover, rfl, rfl⟩ := h
  rw [bind_ok (waitUpdate_over w hbusy hover (by omega))]
  rfl

theorem Reading.lt (h : Reading cmos n r m) : n < m := by
  obtain ⟨w, -, -, -, rfl⟩ := h
  omega

theorem Agreed.lt (h : Agreed cmos last n r m) : n < m := by
  induction h with
  | same h => exact h.lt
  | again h _ _ ih => exact Nat.lt_trans h.lt ih

/-- The loop ends with the reading that is the same as the one before. -/
theorem Agreed.run (h : Agreed cmos last n r m) (hwaits : m ≤ n + waits) (hfuel : m ≤ n + fuel) :
    readAgain cmos waits fuel last n = .ok (r, m) := by
  induction h generalizing waits fuel with
  | same h =>
    have hpos : 0 < fuel := by
      have hlt := h.lt
      omega
    obtain ⟨fuel, rfl⟩ := Nat.exists_eq_succ_of_ne_zero (Nat.pos_iff_ne_zero.mp hpos)
    rw [readAgain, h.run hwaits, if_neg (not_not.mpr rfl)]
    rfl
  | again h hne hrest ih =>
    have hlt := h.lt
    have hlt' := hrest.lt
    have hpos : 0 < fuel := by omega
    obtain ⟨fuel, rfl⟩ := Nat.exists_eq_succ_of_ne_zero (Nat.pos_iff_ne_zero.mp hpos)
    rw [readAgain, h.run (by omega), if_pos hne]
    exact ih (by omega) (by omega)

/-- When two readings in a row agree the code returns what it makes of them. -/
theorem readRtc_agreed (hfirst : Reading cmos n first k) (h : Agreed cmos first k r m)
    (hfuel : m ≤ n + fuel) :
    readRtc cmos fuel n = .ok (convert (cmos m RTC_B_REG) r, m + 1) := by
  have hlt := hfirst.lt
  have hlt' := h.lt
  unfold readRtc
  rw [hfirst.run (by omega), bind_ok (h.run (by omega) (by omega))]
  rfl

/-- Once the readings agree on a date, its timestamp is returned unless the clock counts to twelve
and it is the first hour after midnight or noon. -/
theorem read_rtc_iff {d : Date} (hfirst : Reading cmos n first k)
    (h : Agreed cmos first k (d.registers (cmos m RTC_B_REG)) m) :
    (∃ enough, ∀ fuel, enough ≤ fuel →
      (readRtc cmos fuel n).map (fun x => x.1.toNat) = .ok d.timestamp) ↔
    cmos m RTC_B_REG &&& 0x02 ≠ 0 ∨ d.hour % 12 ≠ 0 := by
  rw [← convert_iff]
  constructor
  · intro hright
    obtain ⟨enough, hright⟩ := hright
    have hmap := hright (enough + m) (Nat.le_add_right _ _)
    rw [readRtc_agreed hfirst h (by omega)] at hmap
    exact Except.ok.inj hmap
  · intro hright
    refine ⟨m, fun fuel hfuel => ?_⟩
    rw [readRtc_agreed hfirst h (by omega)]
    exact congrArg Except.ok hright

/-- A clock that stands still. -/
def stopped (registerB : Byte) (r : Regs) : Cmos := fun _ reg =>
  if reg = RTC_SEC_REG then r.second
  else if reg = RTC_MIN_REG then r.minute
  else if reg = RTC_HOUR_REG then r.hour
  else if reg = RTC_DAY_REG then r.day
  else if reg = RTC_MONTH_REG then r.month
  else if reg = RTC_YEAR_REG then r.year
  else if reg = RTC_B_REG then registerB
  else 0

theorem stopped_reading (registerB : Byte) (r : Regs) (n : Nat) :
    Reading (stopped registerB r) n r (n + 7) := by
  refine ⟨0, ?_, BitVec.zero_and, rfl, rfl⟩
  intro i hi
  exact absurd hi (Nat.not_lt_zero i)

/-- The first of March 2024 at `hour`:30. -/
def march (hour : Fin 24) : Date where
  year := 2024
  month := 3
  day := 1
  hour := hour
  minute := 30
  second := 0
  year_range := by decide
  month_range := by decide
  day_range := by decide
  hour_lt := hour.isLt
  minute_lt := by decide
  second_lt := by decide

theorem read_rtc_afternoon : (∃ enough, ∀ fuel, enough ≤ fuel →
    (readRtc (stopped 0 ((march 15).registers 0)) fuel 0).map (fun x => x.1.toNat) =
      .ok (march 15).timestamp) ↔ (0 : Byte) &&& 0x02 ≠ 0 ∨ 15 % 12 ≠ 0 :=
  read_rtc_iff (stopped_reading 0 _ 0) (.same (stopped_reading 0 _ 7))

/-- At half past noon on a twelve-hour clock the code is twelve hours behind. -/
theorem half_past_noon : ¬ ∃ enough, ∀ fuel, enough ≤ fuel →
    (readRtc (stopped 0 ((march 12).registers 0)) fuel 0).map (fun x => x.1.toNat) =
      .ok (march 12).timestamp := by
  intro hall
  obtain ⟨enough, hall⟩ := hall
  have hright := hall (enough + 14) (by omega)
  rw [readRtc_agreed (stopped_reading 0 _ 0) (.same (stopped_reading 0 _ 7)) (by omega)] at hright
  have hconvert := (convert_iff (march 12) 0).mp (Except.ok.inj hright)
  exact absurd hconvert (by decide)

end Frog.Rtc
