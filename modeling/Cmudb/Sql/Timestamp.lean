import Mathlib.Tactic.IntervalCases
import Cmudb.Lib.Decimals
import Cmudb.Sql.Values

/-!
# Timestamps

Microseconds since 1970, printed as a date of the proleptic Gregorian calendar
and parsed back. The arithmetic of `civil_from_days` is written once for any
monad in which its intermediate results are computed: without bounds it is the
function on all integers, and with results that have to fit 64 bits it says
where the machine's overflows. The calendar is that of years that begin in
March, whose leap day comes last.
-/

namespace Cmudb.Sql.Timestamp

open Lib

def microsPerSecond : Int := 1000000

def secondsPerDay : Int := 86400

def microsPerDay : Int := microsPerSecond * secondsPerDay

def fractionDigits : Nat := 6

def daysFromCivilEpochToUnixEpoch : Int := 719468

def daysPer400Years : Int := 146097

structure InvalidTimestamp where
  literal : Text
  deriving DecidableEq, Repr

/-! ## The calendar -/

def isLeapYear (year : Int) : Bool := (year.tmod 4 == 0 && year.tmod 100 != 0) || year.tmod 400 == 0

def daysInMonth (year month : Int) : Int :=
  if month = 2 then if isLeapYear year then 29 else 28
  else if month = 4 ∨ month = 6 ∨ month = 9 ∨ month = 11 then 30
  else 31

def daysFromCivil (year month day : Int) : Int :=
  let year := if month ≤ 2 then year - 1 else year
  let era := year / 400
  let yearOfEra := year - era * 400
  let monthFromMarch := (month + 9).tmod 12
  let dayOfYear := (153 * monthFromMarch + 2).tdiv 5 + day - 1
  let dayOfEra := yearOfEra * 365 + yearOfEra.tdiv 4 - yearOfEra.tdiv 100 + dayOfYear
  era * daysPer400Years + dayOfEra - daysFromCivilEpochToUnixEpoch

section
variable {m : Type → Type} [Monad m] (op : Int → m Int)

/-- `civil_from_days`, each sum, difference and product computed by `op`. -/
def civilFromDaysBy (days : Int) : m (Int × Int × Int) := do
  let days ← op (days + daysFromCivilEpochToUnixEpoch)
  let era := days / daysPer400Years
  let dayOfEra ← op (days - (← op (era * daysPer400Years)))
  let sum ← op ((← op (dayOfEra - dayOfEra.tdiv 1460)) + dayOfEra.tdiv 36524)
  let yearOfEra := (← op (sum - dayOfEra.tdiv 146096)).tdiv 365
  let leaps ← op ((← op (365 * yearOfEra)) + yearOfEra.tdiv 4)
  let dayOfYear ← op (dayOfEra - (← op (leaps - yearOfEra.tdiv 100)))
  let monthFromMarch := (← op ((← op (5 * dayOfYear)) + 2)).tdiv 153
  let before := (← op ((← op (153 * monthFromMarch)) + 2)).tdiv 5
  let day ← op ((← op (dayOfYear - before)) + 1)
  let month ← op (if monthFromMarch < 10 then monthFromMarch + 3 else monthFromMarch - 9)
  let year ← op ((← op (yearOfEra + (← op (era * 400)))) + if month ≤ 2 then 1 else 0)
  return (year, month, day)

end

def civilFromDays (days : Int) : Int × Int × Int := Id.run (civilFromDaysBy pure days)

/-- A result that fits 64 bits; `none` is an overflow. -/
def i64 (x : Int) : Option Int := if inI64 x then some x else none

/-! ## Text -/

def isWhitespace (c : Char) : Bool :=
  let n := c.toNat
  decide (9 ≤ n ∧ n ≤ 13) || decide (0x2000 ≤ n ∧ n ≤ 0x200A) ||
    [0x20, 0x85, 0xA0, 0x1680, 0x2028, 0x2029, 0x202F, 0x205F, 0x3000].contains n

def trimStart (s : Text) : Text := s.dropWhile isWhitespace

def trim (s : Text) : Text := (trimStart s).rdropWhile isWhitespace

def splitOnce (p : Char → Bool) (s : Text) : Option (Text × Text) :=
  match s.dropWhile (!p ·) with
  | [] => none
  | _ :: rest => some (s.takeWhile (!p ·), rest)

def isAsciiDigit (b : UInt8) : Bool := 48 ≤ b.toNat && b.toNat ≤ 57

def fixedDigits (s : Text) (len : Nat) : Option Int :=
  if s.asBytes.length = len ∧ s.asBytes.all isAsciiDigit then some (digitsValue s) else none

def parseDate (date : Text) : Option Int :=
  match date.splitOn '-' with
  | [y, m, d] => do
    let year ← fixedDigits y 4
    let month ← fixedDigits m 2
    let day ← fixedDigits d 2
    if month < 1 ∨ 12 < month ∨ day < 1 ∨ daysInMonth year month < day then none
    else some (daysFromCivil year month day)
  | _ => none

def parseFraction : Option Text → Option Int
  | none => some 0
  | some digits =>
    if digits.isEmpty ∨ fractionDigits < digits.asBytes.length ∨ !digits.asBytes.all isAsciiDigit then none
    else some (digitsValue (digits ++ List.replicate (fractionDigits - digits.length) '0'))

def splitFraction (time : Text) : Text × Option Text :=
  match splitOnce (· == '.') time with
  | some (hms, fraction) => (hms, some fraction)
  | none => (time, none)

def parseTime (time : Text) : Option Int :=
  let (hms, fraction) := splitFraction time
  match hms.splitOn ':' with
  | [h, m, s] => do
    let hour ← fixedDigits h 2
    let minute ← fixedDigits m 2
    let second ← fixedDigits s 2
    if 23 < hour ∨ 59 < minute ∨ 59 < second then none
    else do
      let micros ← parseFraction fraction
      some (((hour * 60 + minute) * 60 + second) * microsPerSecond + micros)
  | _ => none

def parseParts (s : Text) : Option Int := do
  let (date, time) := match splitOnce (fun c => c == ' ' || c == 'T') s with
    | some (date, time) => (date, some (trimStart time))
    | none => (s, none)
  let days ← parseDate date
  let microsOfDay ← time.elim (some 0) parseTime
  i64 ((← i64 (days * microsPerDay)) + microsOfDay)

def parse (literal : Text) : Except InvalidTimestamp Int :=
  match parseParts (trim literal) with
  | some micros => .ok micros
  | none => .error ⟨literal⟩

def padded (w : Nat) (n : Int) : Text := if n < 0 then '-' :: zeroPadded (w - 1) n.natAbs else zeroPadded w n.natAbs

def fractionText (fraction : Int) : Text :=
  if fraction = 0 then [] else '.' :: (padded fractionDigits fraction).rdropWhile (· == '0')

def textOf (date : Int × Int × Int) (microsOfDay : Int) : Text :=
  let secondsOfDay := microsOfDay.tdiv microsPerSecond
  padded 4 date.1 ++ '-' :: padded 2 date.2.1 ++ '-' :: padded 2 date.2.2 ++
    ' ' :: padded 2 (secondsOfDay.tdiv 3600) ++
    ':' :: padded 2 ((secondsOfDay.tdiv 60).tmod 60) ++ ':' :: padded 2 (secondsOfDay.tmod 60) ++
    fractionText (microsOfDay.tmod microsPerSecond)

/-- `format`, each result of its arithmetic computed by `op`. -/
def formatBy {m : Type → Type} [Monad m] (op : Int → m Int) (micros : Int) : m Text := do
  let date ← civilFromDaysBy op (micros / microsPerDay)
  return textOf date (micros % microsPerDay)

def format (micros : Int) : Text := Id.run (formatBy pure micros)

/-! ## Years from March -/

def IsDate (year month day : Int) : Prop := (1 ≤ month ∧ month ≤ 12) ∧ 1 ≤ day ∧ day ≤ daysInMonth year month

theorem isLeapYear_iff (year : Int) :
    isLeapYear year = true ↔ (year % 4 = 0 ∧ year % 100 ≠ 0) ∨ year % 400 = 0 := by
  have htmod : ∀ n : Int, 0 < n → (year.tmod n = 0 ↔ year % n = 0) := fun n _ => by
    rw [← Int.dvd_iff_tmod_eq_zero, ← Int.dvd_iff_emod_eq_zero]
  simp [isLeapYear, htmod]

def yearStart (y : Int) : Int := 365 * y + y / 4 - y / 100

/-- The leap day of the year that begins in March is in the next February. -/
def yearLen (y : Int) : Int := if isLeapYear (y + 1) then 366 else 365

def yearOf (dayOfEra : Int) : Int := (dayOfEra - dayOfEra / 1460 + dayOfEra / 36524 - dayOfEra / 146096) / 365

theorem year_split {y : Int} (h : 0 ≤ y ∧ y < 400) :
    ∃ c q t, y = 100 * c + 4 * q + t ∧ (0 ≤ c ∧ c ≤ 3) ∧ (0 ≤ q ∧ q ≤ 24) ∧ (0 ≤ t ∧ t ≤ 3) :=
  ⟨y / 100, y % 100 / 4, y % 4, by omega, by omega, by omega, by omega⟩

/-- Only a fourth year has a leap day, and the last of a century only when the era ends with it. -/
theorem yearLen_split {c q t : Int} (hc : 0 ≤ c ∧ c ≤ 3) (hq : 0 ≤ q ∧ q ≤ 24) (ht : 0 ≤ t ∧ t ≤ 3) :
    yearLen (100 * c + 4 * q + t) = if t = 3 ∧ (q = 24 → c = 3) then 366 else 365 := by
  unfold yearLen
  have hiff : isLeapYear (100 * c + 4 * q + t + 1) = true ↔ t = 3 ∧ (q = 24 → c = 3) := by
    rw [isLeapYear_iff]
    omega
  by_cases h : t = 3 ∧ (q = 24 → c = 3)
  · rw [if_pos (hiff.mpr h), if_pos h]
  · rw [if_neg fun hl => h (hiff.mp hl), if_neg h]

theorem yearStart_split {c q t : Int} (hq : 0 ≤ q ∧ q ≤ 24) (ht : 0 ≤ t ∧ t ≤ 3) :
    yearStart (100 * c + 4 * q + t) = 36524 * c + 1461 * q + 365 * t := by
  unfold yearStart
  omega

theorem yearOf_eq {y d : Int} (hy : 0 ≤ y ∧ y < 400) (hd : 0 ≤ d ∧ d < yearLen y) :
    yearOf (yearStart y + d) = y := by
  obtain ⟨c, q, t, rfl, hc, hq, ht⟩ := year_split hy
  rw [yearLen_split hc hq ht] at hd
  rw [yearStart_split hq ht]
  obtain ⟨e, he⟩ : ∃ e, e = 36524 * c + 1461 * q + 365 * t + d := ⟨_, rfl⟩
  rw [← he, yearOf]
  have hd365 : d ≤ 365 ∧ (d = 365 → t = 3 ∧ (q = 24 → c = 3)) := by
    split at hd
    · exact ⟨by omega, fun _ => ‹_›⟩
    · omega
  by_cases hlast : c = 3 ∧ q = 24 ∧ t = 3 ∧ d = 365
  · obtain ⟨rfl, rfl, rfl, rfl⟩ := hlast
    rw [he]
    decide
  · have hcentury : e / 36524 = c := by omega
    have hera : e / 146096 = 0 := by omega
    -- the days of a leap year that are past 1460 belong to the same four years
    obtain ⟨s, hs, hsd⟩ : ∃ s, e / 1460 = 25 * c + q + s ∧ (s = 0 ∧ d ≤ 364 ∨ s = 1 ∧ 1 ≤ d) := by
      by_cases hw : 1460 ≤ 24 * c + q + 365 * t + d
      · exact ⟨1, by omega, .inr (by omega)⟩
      · exact ⟨0, by omega, .inl (by omega)⟩
    rw [hcentury, hera, hs]
    omega

theorem exists_year {e : Int} (h : 0 ≤ e ∧ e < daysPer400Years) :
    ∃ y d, (0 ≤ y ∧ y < 400) ∧ (0 ≤ d ∧ d < yearLen y) ∧ e = yearStart y + d := by
  unfold daysPer400Years at h
  obtain ⟨c, r, hc, hr, he⟩ : ∃ c r : Int, (0 ≤ c ∧ c ≤ 3) ∧ (0 ≤ r ∧ (r < 36524 ∨ r = 36524 ∧ c = 3)) ∧
      e = 36524 * c + r := by
    by_cases hlast : e = 146096
    · exact ⟨3, 36524, by omega, by omega, by omega⟩
    · exact ⟨e / 36524, e % 36524, by omega, by omega, by omega⟩
  obtain ⟨q, u, hq, hu, hru⟩ : ∃ q u : Int, (0 ≤ q ∧ q ≤ 24) ∧ (0 ≤ u ∧ u < 1461) ∧ r = 1461 * q + u :=
    ⟨r / 1461, r % 1461, by omega, by omega, by omega⟩
  obtain ⟨t, d, ht, hd, hud⟩ : ∃ t d : Int, (0 ≤ t ∧ t ≤ 3) ∧ (0 ≤ d ∧ (d < 365 ∨ d = 365 ∧ t = 3)) ∧
      u = 365 * t + d := by
    by_cases hlast : u = 1460
    · exact ⟨3, 365, by omega, by omega, by omega⟩
    · exact ⟨u / 365, u % 365, by omega, by omega, by omega⟩
  refine ⟨100 * c + 4 * q + t, d, by omega, ?_, ?_⟩
  · rw [yearLen_split hc hq ht]
    split <;> omega
  · rw [yearStart_split hq ht]
    omega

/-! ## Months from March -/

def monthStart (k : Int) : Int := (153 * k + 2) / 5

def monthLen (y k : Int) : Int :=
  if k = 11 then yearLen y - 337 else if k = 1 ∨ k = 3 ∨ k = 6 ∨ k = 8 then 30 else 31

theorem yearLen_cases (y : Int) : yearLen y = 365 ∨ yearLen y = 366 := by
  unfold yearLen
  split
  · exact .inr rfl
  · exact .inl rfl

theorem monthOf_eq {y k d : Int} (hk : 0 ≤ k ∧ k ≤ 11) (hd : 1 ≤ d ∧ d ≤ monthLen y k) :
    (5 * (monthStart k + d - 1) + 2) / 153 = k ∧ 0 ≤ monthStart k + d - 1 ∧ monthStart k + d - 1 < yearLen y := by
  have hy := yearLen_cases y
  unfold monthLen at hd
  unfold monthStart
  obtain ⟨hk0, hk11⟩ := hk
  interval_cases k <;> simp at hd <;> omega

theorem exists_month {y d : Int} (h : 0 ≤ d ∧ d < yearLen y) :
    ∃ k e, (0 ≤ k ∧ k ≤ 11) ∧ (1 ≤ e ∧ e ≤ monthLen y k) ∧ d = monthStart k + e - 1 := by
  have hy := yearLen_cases y
  obtain ⟨k, hk⟩ : ∃ k, k = (5 * d + 2) / 153 := ⟨_, rfl⟩
  have hk0 : 0 ≤ k := by omega
  have hk11 : k ≤ 11 := by omega
  refine ⟨k, d - monthStart k + 1, ⟨hk0, hk11⟩, ?_, by omega⟩
  unfold monthLen monthStart
  interval_cases k <;> simp <;> omega

end Cmudb.Sql.Timestamp
