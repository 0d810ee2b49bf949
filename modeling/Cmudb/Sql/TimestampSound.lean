import Cmudb.Sql.Timestamp

/-!
# Timestamps round trip

Days and dates are matched by way of the era, the year of the era and the
month from March. What is printed of a time whose year has four digits is
parsed back, and texts with as many digits of a fraction compare as the times
they stand for.
-/

namespace Cmudb.Sql.Timestamp

open Lib Std

/-! ## Days and dates -/

/-- The day `e` of the month `k` from March in the year `y` of an era. -/
structure Place (y k e : Int) : Prop where
  year : 0 ≤ y ∧ y < 400
  month : 0 ≤ k ∧ k ≤ 11
  day : 1 ≤ e ∧ e ≤ monthLen y k

def dayNumber (era y k e : Int) : Int :=
  era * daysPer400Years + (yearStart y + (monthStart k + e - 1)) - daysFromCivilEpochToUnixEpoch

def dateAt (era y k e : Int) : Int × Int × Int :=
  (y + era * 400 + if k < 10 then 0 else 1, if k < 10 then k + 3 else k - 9, e)

section
variable {era y k e : Int}

theorem yearEnd_le (h : 0 ≤ y ∧ y < 400) : yearStart y + yearLen y ≤ daysPer400Years := by
  obtain ⟨c, q, t, rfl, hc, hq, ht⟩ := year_split h
  rw [yearLen_split hc hq ht, yearStart_split hq ht, daysPer400Years]
  split <;> omega

theorem Place.inEra (h : Place y k e) :
    0 ≤ yearStart y + (monthStart k + e - 1) ∧ yearStart y + (monthStart k + e - 1) < daysPer400Years := by
  obtain ⟨-, hd0, hd⟩ := monthOf_eq h.month h.day
  have hend := yearEnd_le h.year
  have hstart : 0 ≤ yearStart y := by
    have := h.year
    unfold yearStart
    omega
  omega

theorem civilFromDaysBy_dayNumber {m : Type → Type} [Monad m] [LawfulMonad m] {op : Int → m Int} {n : Int}
    (h : Place y k e) (hera : -n ≤ era ∧ era ≤ n)
    (hop : ∀ x, -(146097 * n + 1000000) ≤ x → x ≤ 146097 * n + 1000000 → op x = pure x) :
    civilFromDaysBy op (dayNumber era y k e) = pure (dateAt era y k e) := by
  obtain ⟨hmonth, hd0, hd⟩ := monthOf_eq h.month h.day
  obtain ⟨he0, he⟩ := h.inEra
  have hyear := yearOf_eq h.year ⟨hd0, hd⟩
  obtain ⟨hy0, hy⟩ := h.year
  obtain ⟨hk0, hk⟩ := h.month
  have hlen := yearLen_cases y
  obtain ⟨d, hdd⟩ : ∃ d, d = monthStart k + e - 1 := ⟨_, rfl⟩
  obtain ⟨E, hE⟩ : ∃ E, E = yearStart y + d := ⟨_, rfl⟩
  rw [← hdd] at hmonth hd0 hd hyear he0 he
  rw [← hE] at hyear he0 he
  unfold daysPer400Years at he
  have hd365 : d ≤ 365 := by omega
  have small : ∀ x, 0 ≤ x → x ≤ 1000000 → op x = pure x := by
    intro x hx0 hx
    exact hop x (by omega) (by omega)
  have hdays : op (dayNumber era y k e + daysFromCivilEpochToUnixEpoch) = pure (era * daysPer400Years + E) := by
    have hsum : dayNumber era y k e + daysFromCivilEpochToUnixEpoch = era * daysPer400Years + E := by
      rw [dayNumber, hE, hdd]
      omega
    rw [hsum]
    unfold daysPer400Years
    exact hop _ (by omega) (by omega)
  have hquot : (era * daysPer400Years + E) / daysPer400Years = era := by
    unfold daysPer400Years
    omega
  have hstart : op (era * daysPer400Years) = pure (era * daysPer400Years) := by
    unfold daysPer400Years
    exact hop _ (by omega) (by omega)
  have hrest : era * daysPer400Years + E - era * daysPer400Years = E := by omega
  have hyears : (E - E / 1460 + E / 36524 - E / 146096).tdiv 365 = y := by
    rw [Int.tdiv_eq_ediv_of_nonneg (by omega)]
    exact hyear
  have hday : E - (365 * y + y / 4 - y / 100) = d := by
    rw [hE, yearStart]
    omega
  have hbefore : d - (153 * k + 2) / 5 = e - 1 := by
    rw [hdd, monthStart]
    omega
  have hlate : (if (if k < 10 then k + 3 else k - 9) ≤ 2 then (1 : Int) else 0) = if k < 10 then 0 else 1 := by
    by_cases hk10 : k < 10
    · rw [if_pos hk10, if_neg (by omega), if_pos hk10]
    · rw [if_neg hk10, if_pos (by omega), if_neg hk10]
  simp only [civilFromDaysBy, hdays, pure_bind, hquot, hstart, hrest, small E he0 (by omega),
    Int.tdiv_eq_ediv_of_nonneg he0, small (E - E / 1460) (by omega) (by omega),
    small (E - E / 1460 + E / 36524) (by omega) (by omega),
    small (E - E / 1460 + E / 36524 - E / 146096) (by omega) (by omega), hyears, Int.tdiv_eq_ediv_of_nonneg hy0,
    small (365 * y) (by omega) (by omega), small (365 * y + y / 4) (by omega) (by omega),
    small (365 * y + y / 4 - y / 100) (by omega) (by omega), hday, small d hd0 (by omega),
    small (5 * d) (by omega) (by omega), small (5 * d + 2) (by omega) (by omega),
    Int.tdiv_eq_ediv_of_nonneg (show 0 ≤ 5 * d + 2 by omega), hmonth, small (153 * k) (by omega) (by omega),
    small (153 * k + 2) (by omega) (by omega), Int.tdiv_eq_ediv_of_nonneg (show 0 ≤ 153 * k + 2 by omega), hbefore,
    small (e - 1) (by omega) (by omega), Int.sub_add_cancel, small e (by omega) (by omega),
    small (if k < 10 then k + 3 else k - 9) (by split <;> omega) (by split <;> omega),
    hop (era * 400) (by omega) (by omega), hop (y + era * 400) (by omega) (by omega), hlate,
    hop (y + era * 400 + if k < 10 then 0 else 1) (by split <;> omega) (by split <;> omega), dateAt]

theorem civilFromDays_dayNumber (h : Place y k e) : civilFromDays (dayNumber era y k e) = dateAt era y k e :=
  congrArg Id.run (civilFromDaysBy_dayNumber (m := Id) (n := era.natAbs) h (by omega) fun _ _ _ => rfl)

theorem isLeapYear_shift (n era : Int) : isLeapYear (n + era * 400) = isLeapYear n := by
  rw [Bool.eq_iff_iff, isLeapYear_iff, isLeapYear_iff]
  omega

theorem monthLen_eq (hk : 0 ≤ k ∧ k ≤ 11) (era e : Int) :
    monthLen y k = daysInMonth (dateAt era y k e).1 (dateAt era y k e).2.1 := by
  obtain ⟨hk0, hk11⟩ := hk
  unfold monthLen daysInMonth dateAt
  dsimp only
  interval_cases k <;> simp
  -- February is in the year after the one that began in March
  rw [show y + era * 400 + 1 = y + 1 + era * 400 by omega, isLeapYear_shift, yearLen]
  split <;> rfl

theorem daysFromCivil_dateAt (h : Place y k e) (era : Int) :
    daysFromCivil (dateAt era y k e).1 (dateAt era y k e).2.1 (dateAt era y k e).2.2 = dayNumber era y k e := by
  have hy := h.year
  have hk := h.month
  have hyear : (if (dateAt era y k e).2.1 ≤ 2 then (dateAt era y k e).1 - 1 else (dateAt era y k e).1) =
      y + era * 400 := by
    unfold dateAt
    by_cases hk10 : k < 10
    · simp only [if_pos hk10]
      rw [if_neg (by omega)]
      omega
    · simp only [if_neg hk10]
      rw [if_pos (by omega)]
      omega
  have hmonth : ((dateAt era y k e).2.1 + 9).tmod 12 = k := by
    unfold dateAt
    dsimp only
    rw [Int.tmod_eq_emod_of_nonneg (by split <;> omega)]
    split <;> omega
  have hera : (y + era * 400) / 400 = era := by omega
  have hrest : y + era * 400 - era * 400 = y := by omega
  simp only [daysFromCivil, hyear, hmonth, hera, hrest]
  rw [Int.tdiv_eq_ediv_of_nonneg hy.1, Int.tdiv_eq_ediv_of_nonneg hy.1, Int.tdiv_eq_ediv_of_nonneg (by omega),
    dayNumber, yearStart, monthStart]
  simp only [dateAt]
  omega

theorem exists_dayNumber (days : Int) : ∃ era y k e, Place y k e ∧ days = dayNumber era y k e := by
  obtain ⟨era, hera⟩ : ∃ era, era = (days + daysFromCivilEpochToUnixEpoch) / daysPer400Years := ⟨_, rfl⟩
  obtain ⟨y, d, hy, hd, hyd⟩ := exists_year (e := days + daysFromCivilEpochToUnixEpoch - era * daysPer400Years) (by
    unfold daysPer400Years at *
    omega)
  obtain ⟨k, e, hk, he, hke⟩ := exists_month hd
  refine ⟨era, y, k, e, ⟨hy, hk, he⟩, ?_⟩
  rw [dayNumber, ← hke, ← hyd]
  omega

theorem Place.isDate (h : Place y k e) (era : Int) :
    IsDate (dateAt era y k e).1 (dateAt era y k e).2.1 (dateAt era y k e).2.2 := by
  have hk := h.month
  refine ⟨?_, h.day.1, ?_⟩
  · unfold dateAt
    dsimp only
    split <;> omega
  · have := h.day.2
    rwa [monthLen_eq hk era e] at this

theorem IsDate.exists_place {year month day : Int} (h : IsDate year month day) :
    ∃ era y k, Place y k day ∧ (year, month, day) = dateAt era y k day := by
  obtain ⟨⟨hm1, hm12⟩, hd⟩ := h
  obtain ⟨k, hk⟩ : ∃ k, k = if month ≤ 2 then month + 9 else month - 3 := ⟨_, rfl⟩
  obtain ⟨march, hmarch⟩ : ∃ march, march = if month ≤ 2 then year - 1 else year := ⟨_, rfl⟩
  have hk11 : 0 ≤ k ∧ k ≤ 11 := by
    rw [hk]
    split <;> omega
  have hdate : (year, month, day) = dateAt (march / 400) (march % 400) k day := by
    unfold dateAt
    rw [hk, hmarch]
    by_cases h2 : month ≤ 2
    · simp only [if_pos h2]
      rw [if_neg (by omega), if_neg (by omega), Prod.mk.injEq, Prod.mk.injEq]
      exact ⟨by omega, by omega, rfl⟩
    · simp only [if_neg h2]
      rw [if_pos (by omega), if_pos (by omega), Prod.mk.injEq, Prod.mk.injEq]
      exact ⟨by omega, by omega, rfl⟩
  refine ⟨march / 400, march % 400, k, ⟨by omega, hk11, hd.1, ?_⟩, hdate⟩
  rw [monthLen_eq hk11 (march / 400) day, ← hdate]
  exact hd.2

end

def nextDate (year month day : Int) : Int × Int × Int :=
  if day < daysInMonth year month then (year, month, day + 1) else if month < 12 then (year, month + 1, 1)
    else (year + 1, 1, 1)

theorem monthStart_succ {y k : Int} (hk : 0 ≤ k ∧ k < 11) : monthStart (k + 1) = monthStart k + monthLen y k := by
  obtain ⟨hk0, hk11⟩ := hk
  unfold monthStart monthLen
  interval_cases k <;> simp

theorem yearStart_succ {y : Int} (h : 0 ≤ y ∧ y < 399) : yearStart (y + 1) = yearStart y + yearLen y := by
  obtain ⟨c, q, t, rfl, hc, hq, ht⟩ := year_split (y := y) (by omega)
  rw [yearLen_split hc hq ht, yearStart_split hq ht, yearStart]
  split <;> omega

theorem one_le_monthLen (y k : Int) : 1 ≤ monthLen y k := by
  have := yearLen_cases y
  unfold monthLen
  split
  · omega
  · split <;> omega

theorem monthStart_zero : monthStart 0 = 0 := rfl

section
variable {year month day : Int}

theorem daysFromCivil_nextDate (h : IsDate year month day) :
    daysFromCivil (nextDate year month day).1 (nextDate year month day).2.1 (nextDate year month day).2.2 =
      daysFromCivil year month day + 1 := by
  obtain ⟨era, y, k, hp, hdate⟩ := h.exists_place
  have hthis := daysFromCivil_dateAt hp era
  rw [← hdate] at hthis
  have hlen := monthLen_eq (y := y) hp.month era day
  rw [← hdate] at hlen
  have hnext : ∃ era' y' k' e', Place y' k' e' ∧ nextDate year month day = dateAt era' y' k' e' ∧
      dayNumber era' y' k' e' = dayNumber era y k day + 1 := by
    have hday := hp.day
    have hk := hp.month
    have hy := hp.year
    rw [Prod.mk.injEq, Prod.mk.injEq] at hdate
    dsimp only [dateAt] at hdate hlen
    obtain ⟨hyear, hmonth, -⟩ := hdate
    unfold nextDate
    by_cases hlast : day < daysInMonth year month
    · -- the next day of the month
      rw [if_pos hlast]
      refine ⟨era, y, k, day + 1, ⟨hy, hk, by omega, by omega⟩, ?_, ?_⟩
      · rw [dateAt, hyear, hmonth]
      · unfold dayNumber
        omega
    · rw [if_neg hlast]
      have hday : day = monthLen y k := by omega
      by_cases hk11 : k = 11
      · subst hk11
        have hm : month = 2 := by simpa using hmonth
        have hlen11 : monthStart 11 + monthLen y 11 = yearLen y := by
          unfold monthStart monthLen
          simp
        subst hm
        rw [if_pos (by omega)]
        by_cases h399 : y = 399
        · -- the first of March of the next era
          subst h399
          refine ⟨era + 1, 0, 0, 1, ⟨by omega, by omega, by omega, one_le_monthLen 0 0⟩, ?_, ?_⟩
          · unfold dateAt
            simp at hyear ⊢
            omega
          · have hzero : yearStart 0 = 0 := rfl
            have hend : yearStart 399 + yearLen 399 = daysPer400Years := by decide
            rw [dayNumber, dayNumber, hday, hzero, monthStart_zero, Int.add_mul]
            omega
        · refine ⟨era, y + 1, 0, 1, ⟨by omega, by omega, by omega, one_le_monthLen _ _⟩, ?_, ?_⟩
          · unfold dateAt
            simp at hyear ⊢
            omega
          · rw [dayNumber, dayNumber, hday, yearStart_succ (by omega), monthStart_zero]
            omega
      · -- the first of the next month
        refine ⟨era, y, k + 1, 1, ⟨hy, by omega, by omega, one_le_monthLen _ _⟩, ?_, ?_⟩
        · unfold dateAt
          rw [hyear, hmonth]
          by_cases hk9 : k < 9
          · simp [show k < 10 by omega, show k + 1 < 10 by omega, show k + 3 < 12 by omega]
            omega
          · by_cases hk10 : k = 9
            · subst hk10
              simp
            · simp [show ¬ k < 10 by omega, show ¬ k + 1 < 10 by omega, show k - 9 < 12 by omega]
              omega
        · unfold dayNumber
          rw [hday, monthStart_succ (y := y) (by omega)]
          omega
  obtain ⟨era', y', k', e', hp', hdate', hnum⟩ := hnext
  rw [hdate', daysFromCivil_dateAt hp', hnum, hthis]

theorem isDate_civilFromDays (days : Int) :
    IsDate (civilFromDays days).1 (civilFromDays days).2.1 (civilFromDays days).2.2 := by
  obtain ⟨era, y, k, e, hp, rfl⟩ := exists_dayNumber days
  rw [civilFromDays_dayNumber hp]
  exact hp.isDate era

theorem daysFromCivil_civilFromDays (days : Int) :
    daysFromCivil (civilFromDays days).1 (civilFromDays days).2.1 (civilFromDays days).2.2 = days := by
  obtain ⟨era, y, k, e, hp, rfl⟩ := exists_dayNumber days
  rw [civilFromDays_dayNumber hp]
  exact daysFromCivil_dateAt hp era

theorem civilFromDays_daysFromCivil (h : IsDate year month day) :
    civilFromDays (daysFromCivil year month day) = (year, month, day) := by
  obtain ⟨era, y, k, hp, hdate⟩ := h.exists_place
  have hdays := daysFromCivil_dateAt hp era
  rw [← hdate] at hdays
  rw [hdays, civilFromDays_dayNumber hp, hdate]

theorem IsDate.day_le (h : IsDate year month day) : day ≤ 31 := by
  have hd := h.2.2
  unfold daysInMonth at hd
  split at hd
  · split at hd <;> omega
  · split at hd <;> omega

def dateRank (date : Int × Int × Int) : Int := (date.1 * 12 + date.2.1) * 31 + date.2.2

theorem dateRank_nextDate (h : IsDate year month day) :
    dateRank (year, month, day) < dateRank (nextDate year month day) := by
  have hday := h.day_le
  have hmonth := h.1
  unfold nextDate dateRank
  split
  · dsimp only
    omega
  · split
    · dsimp only
      omega
    · dsimp only
      omega

theorem isDate_nextDate (h : IsDate year month day) :
    IsDate (nextDate year month day).1 (nextDate year month day).2.1 (nextDate year month day).2.2 := by
  have hone : ∀ y m, 1 ≤ daysInMonth y m := by
    intro y m
    unfold daysInMonth
    split
    · split <;> omega
    · split <;> omega
  obtain ⟨hm, hd1, hd⟩ := h
  unfold nextDate
  split
  · exact ⟨hm, by dsimp only; omega, by dsimp only; omega⟩
  · split
    · exact ⟨⟨by dsimp only; omega, by dsimp only; omega⟩, Int.le_refl 1, hone _ _⟩
    · exact ⟨⟨Int.le_refl 1, by dsimp only; omega⟩, Int.le_refl 1, hone _ _⟩

end

theorem dateRank_civilFromDays {days days' : Int} (h : days < days') :
    dateRank (civilFromDays days) < dateRank (civilFromDays days') := by
  have hstep : ∀ d, dateRank (civilFromDays d) < dateRank (civilFromDays (d + 1)) := by
    intro d
    have hdate := isDate_civilFromDays d
    have hnext := civilFromDays_daysFromCivil (isDate_nextDate hdate)
    rw [daysFromCivil_nextDate hdate, daysFromCivil_civilFromDays] at hnext
    rw [hnext]
    exact dateRank_nextDate hdate
  exact strictMono_int_of_lt_succ hstep h

/-! ## Printing -/

theorem format_eq (micros : Int) :
    format micros = textOf (civilFromDays (micros / microsPerDay)) (micros % microsPerDay) := rfl

theorem i64_eq {x : Int} (h : inI64 x) : i64 x = some x := if_pos h

theorem formatBy_i64 {micros : Int} (h : inI64 micros) : formatBy i64 micros = some (format micros) := by
  obtain ⟨era, y, k, e, hp, hdays⟩ := exists_dayNumber (micros / microsPerDay)
  have hbound : -106751992 ≤ micros / microsPerDay ∧ micros / microsPerDay ≤ 106751991 := by
    simp only [inI64, decide_eq_true_eq] at h
    unfold microsPerDay microsPerSecond secondsPerDay
    omega
  have hera : -1000 ≤ era ∧ era ≤ 1000 := by
    have hin := hp.inEra
    rw [hdays] at hbound
    unfold dayNumber daysFromCivilEpochToUnixEpoch daysPer400Years at *
    omega
  have hop : ∀ x, -(146097 * 1000 + 1000000) ≤ x → x ≤ 146097 * 1000 + 1000000 → i64 x = pure x :=
    fun x hx0 hx => i64_eq (by simp only [inI64, decide_eq_true_eq]; omega)
  have hcivil := civilFromDaysBy_dayNumber hp hera hop
  rw [formatBy, format_eq, hdays, hcivil, civilFromDays_dayNumber hp]
  rfl

def IsDigit (c : Char) : Prop := ∃ d, d < 10 ∧ c = Nat.digitChar d

theorem IsDigit.byte {c : Char} (h : IsDigit c) : ∃ b, String.utf8EncodeChar c = [b] ∧ isAsciiDigit b = true := by
  obtain ⟨d, hd, rfl⟩ := h
  have hall : ∀ d < 10, ∃ b, String.utf8EncodeChar (Nat.digitChar d) = [b] ∧ isAsciiDigit b = true := by
    intro d hd
    interval_cases d <;> exact ⟨_, rfl, rfl⟩
  exact hall d hd

theorem IsDigit.kind {c : Char} (h : IsDigit c) : isWhitespace c = false ∧ c ∉ ['-', ':', '.', ' ', 'T'] := by
  obtain ⟨d, hd, rfl⟩ := h
  have hall : ∀ d < 10, isWhitespace (Nat.digitChar d) = false ∧
      Nat.digitChar d ∉ ['-', ':', '.', ' ', 'T'] := by decide
  exact hall d hd

theorem digits_bytes {s : Text} (h : ∀ c ∈ s, IsDigit c) :
    s.asBytes.length = s.length ∧ s.asBytes.all isAsciiDigit = true := by
  induction s with
  | nil => exact ⟨rfl, rfl⟩
  | cons c s ih =>
    obtain ⟨hlen, hall⟩ := ih fun x hx => h x (List.mem_cons_of_mem _ hx)
    obtain ⟨b, hb, hdigit⟩ := (h c (List.mem_cons_self ..)).byte
    have hcons : Text.asBytes (c :: s) = b :: Text.asBytes s := by simp [Text.asBytes, hb]
    rw [hcons]
    exact ⟨by rw [List.length_cons, List.length_cons, hlen], by rw [List.all_cons, hdigit, hall]; rfl⟩

theorem natAbs_lt_pow {w : Nat} {n : Int} (h0 : 0 ≤ n) (h : n < 10 ^ w) : n.natAbs < 10 ^ w := by
  obtain ⟨k, rfl⟩ := Int.eq_ofNat_of_zero_le h0
  exact_mod_cast h

theorem padded_eq {w : Nat} {n : Int} (h0 : 0 ≤ n) (h : n < 10 ^ (w + 1)) :
    padded (w + 1) n = decimals (w + 1) n.natAbs := by
  rw [padded, if_neg (by omega), zeroPadded_eq (natAbs_lt_pow h0 h)]

theorem padded_digits {w : Nat} {n : Int} (h0 : 0 ≤ n) (h : n < 10 ^ (w + 1)) :
    ∀ c ∈ padded (w + 1) n, IsDigit c := by
  rw [padded_eq h0 h]
  intro c hc
  exact digit_of_mem_decimals hc

theorem fixedDigits_padded {w : Nat} {n : Int} (h0 : 0 ≤ n) (h : n < 10 ^ (w + 1)) :
    fixedDigits (padded (w + 1) n) (w + 1) = some n := by
  obtain ⟨hlen, hall⟩ := digits_bytes (padded_digits h0 h)
  rw [fixedDigits, if_pos ⟨by rw [hlen, padded_eq h0 h, length_decimals], hall⟩, padded_eq h0 h,
    digitsValue_decimals, Nat.mod_eq_of_lt (natAbs_lt_pow h0 h)]
  exact congrArg some (by omega)

/-! ## The fraction of a second -/

section
variable {f : Int}

theorem exists_fraction (h0 : 0 < f) (h : f < 1000000) :
    ∃ t k, fractionText f = '.' :: t ∧ t ++ List.replicate k '0' = decimals 6 f.natAbs ∧ t ≠ [] := by
  have hpad : padded fractionDigits f = decimals 6 f.natAbs := padded_eq (by omega) h
  obtain ⟨zeros, hz⟩ : ∃ zeros, zeros = (decimals 6 f.natAbs).rtakeWhile (· == '0') := ⟨_, rfl⟩
  have hrep : zeros = List.replicate zeros.length '0' := by
    rw [List.eq_replicate_iff]
    refine ⟨rfl, fun c hc => ?_⟩
    rw [hz] at hc
    simpa using List.mem_rtakeWhile_imp hc
  have hsplit : (decimals 6 f.natAbs).rdropWhile (· == '0') ++ List.replicate zeros.length '0' =
      decimals 6 f.natAbs := by
    rw [← hrep, hz]
    exact List.rdropWhile_append_rtakeWhile ..
  refine ⟨_, zeros.length, by rw [fractionText, if_neg (by omega), hpad], hsplit, fun hnil => ?_⟩
  -- all zeros are no fraction
  rw [hnil, List.nil_append] at hsplit
  have hvalue := digitsValue_decimals 6 f.natAbs
  rw [← hsplit, ← List.nil_append (List.replicate _ _), digitsValue_zeros, Nat.mod_eq_of_lt (by omega)] at hvalue
  simp [digitsValue] at hvalue
  omega

theorem fraction_digits {t : Text} {k n : Nat} (h : t ++ List.replicate k '0' = decimals 6 n) :
    ∀ c ∈ t, IsDigit c := by
  intro c hc
  apply digit_of_mem_decimals (w := 6) (n := n)
  rw [← h]
  exact List.mem_append_left _ hc

theorem parseFraction_fraction {t : Text} {k n : Nat} (ht : t ++ List.replicate k '0' = decimals 6 n) (hne : t ≠ [])
    (hn : n < 1000000) :
    parseFraction (some t) = some (n : Int) := by
  obtain ⟨hlen, hall⟩ := digits_bytes (fraction_digits ht)
  have hsix : t.length + k = 6 := by simpa using congrArg List.length ht
  have hk : fractionDigits - t.length = k := by
    rw [fractionDigits]
    omega
  have hok : ¬ (t.isEmpty ∨ fractionDigits < t.asBytes.length ∨ !t.asBytes.all isAsciiDigit) := by
    rw [hall, hlen, fractionDigits]
    simp [hne]
    omega
  rw [parseFraction, if_neg hok, hk, ht, digitsValue_decimals, Nat.mod_eq_of_lt (show n < 10 ^ 6 from hn)]

end

/-! ## Reading back -/

theorem splitOnce_append {p : Char → Bool} {a : Text} {c : Char} (b : Text) (ha : ∀ x ∈ a, p x = false)
    (hc : p c = true) :
    splitOnce p (a ++ c :: b) = some (a, b) := by
  have hall : ∀ x ∈ a, (!p x) = true := by
    intro x hx
    rw [ha x hx]
    rfl
  rw [splitOnce, List.dropWhile_append_of_pos hall, List.takeWhile_append_of_pos hall]
  simp [hc]

theorem splitOnce_none {p : Char → Bool} {s : Text} (h : ∀ x ∈ s, p x = false) : splitOnce p s = none := by
  have hall : s.dropWhile (!p ·) = [] := by
    rw [List.dropWhile_eq_nil_iff]
    intro x hx
    rw [h x hx]
    rfl
  rw [splitOnce, hall]

theorem splitOn_fields {sep : Char} {x y z : Text} (hsep : sep ∈ ['-', ':', '.', ' ', 'T'])
    (hx : ∀ c ∈ x, IsDigit c) (hy : ∀ c ∈ y, IsDigit c) (hz : ∀ c ∈ z, IsDigit c) :
    (x ++ sep :: y ++ sep :: z).splitOn sep = [x, y, z] := by
  have hnot : ∀ s : Text, (∀ c ∈ s, IsDigit c) → sep ∉ s := fun s hs hmem => (hs sep hmem).kind.2 hsep
  rw [List.append_assoc, List.cons_append, List.splitOn_append_cons_self_of_not_mem (hnot x hx),
    List.splitOn_append_cons_self_of_not_mem (hnot y hy), List.splitOn_eq_singleton (hnot z hz)]

def dateText (date : Int × Int × Int) : Text :=
  padded 4 date.1 ++ '-' :: padded 2 date.2.1 ++ '-' :: padded 2 date.2.2

def clockText (hour minute second : Int) : Text := padded 2 hour ++ ':' :: padded 2 minute ++ ':' :: padded 2 second

structure FourDigits (date : Int × Int × Int) : Prop where
  year : 0 ≤ date.1 ∧ date.1 ≤ 9999
  isDate : IsDate date.1 date.2.1 date.2.2

theorem FourDigits.digits {date : Int × Int × Int} (h : FourDigits date) :
    (∀ c ∈ padded 4 date.1, IsDigit c) ∧ (∀ c ∈ padded 2 date.2.1, IsDigit c) ∧
    ∀ c ∈ padded 2 date.2.2, IsDigit c := by
  have hy := h.year
  have hm := h.isDate.1
  have hd := h.isDate.2.1
  have hd31 := h.isDate.day_le
  exact ⟨padded_digits hy.1 (by omega), padded_digits (by omega) (by omega), padded_digits (by omega) (by omega)⟩

theorem parseDate_dateText {date : Int × Int × Int} (h : FourDigits date) :
    parseDate (dateText date) = some (daysFromCivil date.1 date.2.1 date.2.2) := by
  obtain ⟨hyd, hmd, hdd⟩ := h.digits
  have hy := h.year
  obtain ⟨hm, hd, hlast⟩ := h.isDate
  have hd31 := h.isDate.day_le
  rw [parseDate, dateText, splitOn_fields (by decide) hyd hmd hdd]
  dsimp only
  rw [fixedDigits_padded hy.1 (by omega), fixedDigits_padded (by omega) (by omega),
    fixedDigits_padded (by omega) (by omega)]
  simp only [Option.bind_eq_bind, Option.bind_some]
  rw [if_neg (by omega)]

structure Clock (hour minute second f : Int) : Prop where
  hour : 0 ≤ hour ∧ hour ≤ 23
  minute : 0 ≤ minute ∧ minute ≤ 59
  second : 0 ≤ second ∧ second ≤ 59
  fraction : 0 ≤ f ∧ f < 1000000

section
variable {hour minute second f : Int}

theorem Clock.digits (h : Clock hour minute second f) :
    (∀ c ∈ padded 2 hour, IsDigit c) ∧ (∀ c ∈ padded 2 minute, IsDigit c) ∧ ∀ c ∈ padded 2 second, IsDigit c := by
  obtain ⟨hh, hm, hs, -⟩ := h
  exact ⟨padded_digits hh.1 (by omega), padded_digits hm.1 (by omega), padded_digits hs.1 (by omega)⟩

theorem Clock.chars (h : Clock hour minute second f) : ∀ c ∈ clockText hour minute second, IsDigit c ∨ c = ':' := by
  obtain ⟨hh, hm, hs⟩ := h.digits
  intro c hc
  simp only [clockText, List.mem_append, List.mem_cons] at hc
  rcases hc with (hc | hc | hc) | hc | hc
  · exact .inl (hh c hc)
  · exact .inr hc
  · exact .inl (hm c hc)
  · exact .inr hc
  · exact .inl (hs c hc)

theorem parseTime_clockText (h : Clock hour minute second f) :
    parseTime (clockText hour minute second ++ fractionText f) =
      some (((hour * 60 + minute) * 60 + second) * microsPerSecond + f) := by
  obtain ⟨hhd, hmd, hsd⟩ := h.digits
  have hchars := h.chars
  obtain ⟨hh, hm, hs, hf0, hf⟩ := h
  have hpoint : ∀ c ∈ clockText hour minute second, (c == '.') = false := by
    intro c hc
    rcases hchars c hc with hdigit | rfl
    · have hne : c ≠ '.' := fun heq => hdigit.kind.2 (by rw [heq]; decide)
      simpa using hne
    · rfl
  have hfields : (clockText hour minute second).splitOn ':' = [padded 2 hour, padded 2 minute, padded 2 second] :=
    splitOn_fields (by decide) hhd hmd hsd
  have hparts : ∃ fraction, splitFraction (clockText hour minute second ++ fractionText f) =
      (clockText hour minute second, fraction) ∧
      parseFraction fraction = some f := by
    unfold splitFraction
    by_cases hzero : f = 0
    · refine ⟨none, ?_, by rw [hzero]; rfl⟩
      rw [hzero, fractionText, if_pos rfl, List.append_nil, splitOnce_none hpoint]
    · obtain ⟨t, k, ht, hdigits, hne⟩ := exists_fraction (by omega) hf
      refine ⟨some t, ?_, ?_⟩
      · rw [ht, splitOnce_append t hpoint rfl]
      · rw [parseFraction_fraction hdigits hne (by omega)]
        exact congrArg some (by omega)
  obtain ⟨fraction, hsplit, hvalue⟩ := hparts
  unfold parseTime
  rw [hsplit]
  dsimp only
  rw [hfields]
  dsimp only
  rw [fixedDigits_padded hh.1 (by omega), fixedDigits_padded hm.1 (by omega), fixedDigits_padded hs.1 (by omega)]
  simp only [Option.bind_eq_bind, Option.bind_some, hvalue]
  rw [if_neg (by omega)]

end

theorem exists_clock {u : Int} (h : 0 ≤ u ∧ u < microsPerDay) : ∃ hour minute second f, Clock hour minute second f ∧
    u = ((hour * 60 + minute) * 60 + second) * microsPerSecond + f ∧
    ∀ date, textOf date u = dateText date ++ ' ' :: (clockText hour minute second ++ fractionText f) := by
  unfold microsPerDay microsPerSecond secondsPerDay at h
  refine ⟨u / 1000000 / 3600, u / 1000000 / 60 % 60, u / 1000000 % 60, u % 1000000,
    ⟨by omega, by omega, by omega, by omega⟩, ?_, fun date => ?_⟩
  · unfold microsPerSecond
    omega
  · have hsec : u.tdiv microsPerSecond = u / 1000000 := Int.tdiv_eq_ediv_of_nonneg h.1
    have hfrac : u.tmod microsPerSecond = u % 1000000 := Int.tmod_eq_emod_of_nonneg h.1
    have h0 : 0 ≤ u / 1000000 := by omega
    simp only [textOf, hsec, hfrac, Int.tdiv_eq_ediv_of_nonneg h0, Int.tmod_eq_emod_of_nonneg h0,
      Int.tmod_eq_emod_of_nonneg (show 0 ≤ u / 1000000 / 60 by omega),
      dateText, clockText, List.append_assoc, List.cons_append]

theorem dropWhile_digit {c : Char} (rest : Text) (h : IsDigit c) : trimStart (c :: rest) = c :: rest := by
  simp [trimStart, h.kind.1]

theorem exists_digit_cons {w : Nat} {n : Int} (h0 : 0 ≤ n) (h : n < 10 ^ (w + 1)) :
    ∃ c rest, padded (w + 1) n = c :: rest ∧ IsDigit c := by
  cases hp : padded (w + 1) n with
  | nil =>
    have hlen := congrArg List.length (padded_eq h0 h)
    rw [hp, length_decimals] at hlen
    cases hlen
  | cons c rest => exact ⟨c, rest, rfl, padded_digits h0 h c (by rw [hp]; exact List.mem_cons_self ..)⟩

theorem not_whitespace_fraction {f : Int} (hf : 0 ≤ f ∧ f < 1000000) :
    ∀ c ∈ fractionText f, isWhitespace c = false := by
  by_cases hzero : f = 0
  · rw [hzero]
    intro c hc
    cases hc
  · obtain ⟨t, k, ht, hdigits, -⟩ := exists_fraction (by omega) hf.2
    rw [ht]
    intro c hc
    rcases List.mem_cons.mp hc with rfl | hc
    · decide
    · exact (fraction_digits hdigits c hc).kind.1

theorem trim_text {date : Int × Int × Int} {hour minute second f : Int} (h : FourDigits date)
    (hc : Clock hour minute second f) :
    trim (dateText date ++ ' ' :: (clockText hour minute second ++ fractionText f)) =
      dateText date ++ ' ' :: (clockText hour minute second ++ fractionText f) := by
  obtain ⟨c, rest, hcons, hdigit⟩ := exists_digit_cons (w := 3) h.year.1 (by have := h.year; omega)
  have hstart : trimStart (dateText date ++ ' ' :: (clockText hour minute second ++ fractionText f)) =
      dateText date ++ ' ' :: (clockText hour minute second ++ fractionText f) := by
    rw [dateText, hcons]
    exact dropWhile_digit _ hdigit
  obtain ⟨c', rest', hcons', hdigit'⟩ := exists_digit_cons (w := 1) hc.hour.1 (by have := hc.hour; omega)
  rw [trim, hstart, List.rdropWhile_eq_self_iff]
  intro hne
  have htail : clockText hour minute second ++ fractionText f ≠ [] := by
    rw [clockText, hcons']
    simp
  rw [List.getLast_append_of_ne_nil _ (List.cons_ne_nil _ _), List.getLast_cons htail, Bool.not_eq_true]
  have hmem := List.getLast_mem htail
  rcases List.mem_append.mp hmem with hmem | hmem
  · rcases hc.chars _ hmem with hdig | hcolon
    · exact hdig.kind.1
    · rw [hcolon]
      decide
  · exact not_whitespace_fraction hc.fraction _ hmem

theorem parseParts_text {date : Int × Int × Int} {hour minute second f : Int} (h : FourDigits date)
    (hc : Clock hour minute second f) (hfit : inI64 (daysFromCivil date.1 date.2.1 date.2.2 * microsPerDay))
    (hfit' : inI64 (daysFromCivil date.1 date.2.1 date.2.2 * microsPerDay +
      (((hour * 60 + minute) * 60 + second) * microsPerSecond + f))) :
    parseParts (dateText date ++ ' ' :: (clockText hour minute second ++ fractionText f)) =
      some (daysFromCivil date.1 date.2.1 date.2.2 * microsPerDay +
        (((hour * 60 + minute) * 60 + second) * microsPerSecond + f)) := by
  obtain ⟨hyd, hmd, hdd⟩ := h.digits
  have hdate : ∀ c ∈ dateText date, (c == ' ' || c == 'T') = false := by
    have hdigit : ∀ c, IsDigit c → (c == ' ' || c == 'T') = false := by
      intro c hc
      have hne := hc.kind.2
      simp at hne
      simp [hne]
    intro c hmem
    simp only [dateText, List.mem_append, List.mem_cons] at hmem
    rcases hmem with (hmem | rfl | hmem) | rfl | hmem
    · exact hdigit c (hyd c hmem)
    · rfl
    · exact hdigit c (hmd c hmem)
    · rfl
    · exact hdigit c (hdd c hmem)
  obtain ⟨c', rest', hcons', hdigit'⟩ := exists_digit_cons (w := 1) hc.hour.1 (by have := hc.hour; omega)
  have hstart : trimStart (clockText hour minute second ++ fractionText f) =
      clockText hour minute second ++ fractionText f := by
    rw [clockText, hcons']
    exact dropWhile_digit _ hdigit'
  rw [parseParts, splitOnce_append _ hdate rfl]
  simp only [hstart, parseDate_dateText h, Option.elim_some, parseTime_clockText hc, Option.bind_eq_bind,
    Option.bind_some, i64_eq hfit, i64_eq hfit']

theorem days_of_year {days : Int} (h : 0 ≤ (civilFromDays days).1) : -1000000 ≤ days := by
  obtain ⟨era, y, k, e, hp, rfl⟩ := exists_dayNumber days
  have hin := hp.inEra
  have hy := hp.year
  rw [civilFromDays_dayNumber hp, dateAt] at h
  unfold dayNumber daysFromCivilEpochToUnixEpoch daysPer400Years at *
  dsimp only at h
  split at h
  · omega
  · omega

theorem parse_format {micros : Int} (h : inI64 micros)
    (hyear : 0 ≤ (civilFromDays (micros / microsPerDay)).1 ∧ (civilFromDays (micros / microsPerDay)).1 ≤ 9999) :
    parse (format micros) = .ok micros := by
  have hday : 0 ≤ micros % microsPerDay ∧ micros % microsPerDay < microsPerDay := by
    unfold microsPerDay microsPerSecond secondsPerDay
    omega
  obtain ⟨hour, minute, second, f, hc, hu, htext⟩ := exists_clock hday
  have hdate : FourDigits (civilFromDays (micros / microsPerDay)) := ⟨hyear, isDate_civilFromDays _⟩
  have hdays := daysFromCivil_civilFromDays (micros / microsPerDay)
  have hsum : micros / microsPerDay * microsPerDay + micros % microsPerDay = micros := by
    have := Int.mul_ediv_add_emod micros microsPerDay
    rw [Int.mul_comm]
    exact this
  have hfit : inI64 (micros / microsPerDay * microsPerDay) := by
    have hlow := days_of_year hyear.1
    simp only [inI64, decide_eq_true_eq] at h ⊢
    unfold microsPerDay microsPerSecond secondsPerDay at *
    omega
  have hparts := parseParts_text hdate hc (by rwa [hdays]) (by rwa [hdays, ← hu, hsum])
  rw [hdays, ← hu, hsum] at hparts
  rw [parse, format_eq, htext, trim_text hdate hc, hparts]

/-! ## The order of the texts -/

theorem digit_ordered : OrderedCode byteCmp (· < 10) compare fun d => String.utf8EncodeChar (Nat.digitChar d) := by
  have hlen : ∀ d < 10, (String.utf8EncodeChar (Nat.digitChar d)).length = 1 := by
    intro d hd
    interval_cases d <;> rfl
  have hbyte : ∀ d < 10, String.utf8EncodeChar (Nat.digitChar d) = [UInt8.ofNat (48 + d)] := by
    intro d hd
    interval_cases d <;> rfl
  refine .of_length hlen fun a b ha hb => ?_
  rw [hbyte a ha, hbyte b hb, List.compareLex_cons_cons, List.compareLex_nil_nil, Ordering.then_eq]
  have hlt : (48 + a) % 256 < (48 + b) % 256 ↔ a < b := by omega
  have hgt : (48 + b) % 256 < (48 + a) % 256 ↔ b < a := by omega
  simp [compareOn, Nat.compare_eq_ite_lt, hlt, hgt]

theorem padded_ordered (w : Nat) :
    OrderedCode byteCmp (fun n : Int => 0 ≤ n ∧ n < 10 ^ (w + 1)) compare fun n => (padded (w + 1) n).asBytes := by
  refine (numeral_ordered (by decide) digit_ordered (w + 1)).of_map Int.natAbs ?_ ?_ ?_
  · intro n hn
    exact natAbs_lt_pow hn.1 hn.2
  · intro a b ha hb
    have hlt : a.natAbs < b.natAbs ↔ a < b := by omega
    have hgt : b.natAbs < a.natAbs ↔ b < a := by omega
    rw [Int.compare_eq_ite_lt, Nat.compare_eq_ite_lt]
    simp only [hlt, hgt]
  · intro n hn
    rw [padded_eq hn.1 hn.2, Text.asBytes, decimals_flatMap]

theorem asBytes_append (s t : Text) : (s ++ t).asBytes = s.asBytes ++ t.asBytes := List.flatMap_append ..

theorem compare_bytes_cons (ch : Char) (s t : Text) :
    List.compareLex byteCmp (Text.asBytes (ch :: s)) (Text.asBytes (ch :: t)) =
      List.compareLex byteCmp s.asBytes t.asBytes :=
  compareLex_append_left (String.utf8EncodeChar ch) s.asBytes t.asBytes

theorem compare_bytes_padded (w : Nat) {a b : Int} (ha : 0 ≤ a ∧ a < 10 ^ (w + 1)) (hb : 0 ≤ b ∧ b < 10 ^ (w + 1))
    (s t : Text) :
    List.compareLex byteCmp (Text.asBytes (padded (w + 1) a ++ s)) (Text.asBytes (padded (w + 1) b ++ t)) =
      (compare a b).then (List.compareLex byteCmp s.asBytes t.asBytes) := by
  rw [asBytes_append, asBytes_append]
  exact padded_ordered w a b ha hb _ _

theorem compare_bytes_fraction {f g : Int} (hf : 0 ≤ f ∧ f < 1000000) (hg : 0 ≤ g ∧ g < 1000000)
    (hlen : (fractionText f).length = (fractionText g).length) :
    List.compareLex byteCmp (fractionText f).asBytes (fractionText g).asBytes = compare f g := by
  have hzero : ∀ f, fractionText f = [] ↔ f = 0 := by
    intro f
    unfold fractionText
    split
    · simp [*]
    · simp [*]
  by_cases hf0 : f = 0
  · have hg0 : g = 0 := by
      rw [(hzero f).mpr hf0] at hlen
      exact (hzero g).mp (List.length_eq_zero_iff.mp hlen.symm)
    rw [hf0, hg0]
    rfl
  · have hg0 : g ≠ 0 := by
      intro hg0
      rw [(hzero g).mpr hg0] at hlen
      exact hf0 ((hzero f).mp (List.length_eq_zero_iff.mp hlen))
    obtain ⟨t, k, ht, htd, -⟩ := exists_fraction (by omega) hf.2
    obtain ⟨t', k', ht', htd', -⟩ := exists_fraction (f := g) (by omega) hg.2
    have hlen' : t.length = t'.length := by simpa [ht, ht'] using hlen
    have hk : k = k' := by
      have h6 : t.length + k = 6 := by simpa using congrArg List.length htd
      have h6' : t'.length + k' = 6 := by simpa using congrArg List.length htd'
      omega
    have hbytes : (Text.asBytes t).length = (Text.asBytes t').length := by
      rw [(digits_bytes (fraction_digits htd)).1, (digits_bytes (fraction_digits htd')).1, hlen']
    -- the same zeros are behind both
    have hpad := (padded_ordered 5).compare (a := f) (b := g) hf hg
    rw [padded_eq hf.1 hf.2, padded_eq hg.1 hg.2, ← htd, ← htd', hk, asBytes_append, asBytes_append,
      compareLex_append hbytes, @ReflCmp.compare_self _ (List.compareLex byteCmp) _ _, Ordering.then_eq] at hpad
    rw [ht, ht', compare_bytes_cons]
    exact hpad

theorem then_lt_of_lex {a b : Int} {o : Ordering} (h : a < b ∨ a = b ∧ o = .lt) : (compare a b).then o = .lt := by
  rcases h with h | ⟨rfl, rfl⟩
  · rw [Int.compare_eq_lt.mpr h]
    rfl
  · rw [Int.compare_eq_eq.mpr rfl]
    rfl

def fractionOf (micros : Int) : Text := fractionText ((micros % microsPerDay).tmod microsPerSecond)

theorem fractionOf_eq {micros hour minute second f : Int} (h : Clock hour minute second f)
    (hu : micros % microsPerDay = ((hour * 60 + minute) * 60 + second) * microsPerSecond + f) :
    fractionOf micros = fractionText f := by
  obtain ⟨hh, hm, hs, hf⟩ := h
  unfold microsPerSecond at hu
  rw [fractionOf, Int.tmod_eq_emod_of_nonneg (by omega), microsPerSecond]
  congr 1
  omega

theorem cmp_text {date date' : Int × Int × Int} {hour minute second f hour' minute' second' f' : Int}
    (hd : FourDigits date) (hd' : FourDigits date') (hc : Clock hour minute second f)
    (hc' : Clock hour' minute' second' f') (hlen : (fractionText f).length = (fractionText f').length) :
    (Value.text (dateText date ++ ' ' :: (clockText hour minute second ++ fractionText f))).cmp
        (.text (dateText date' ++ ' ' :: (clockText hour' minute' second' ++ fractionText f'))) =
      (compare date.1 date'.1).then
        ((compare date.2.1 date'.2.1).then ((compare date.2.2 date'.2.2).then ((compare hour hour').then
        ((compare minute minute').then ((compare second second').then (compare f f')))))) := by
  have hday := hd.isDate.day_le
  have hday' := hd'.isDate.day_le
  obtain ⟨hy, hm, hd, -⟩ := hd
  obtain ⟨hy', hm', hd', -⟩ := hd'
  obtain ⟨hh, hmi, hs, hf⟩ := hc
  obtain ⟨hh', hmi', hs', hf'⟩ := hc'
  show List.compareLex byteCmp _ _ = _
  simp only [dateText, clockText, List.append_assoc, List.cons_append]
  rw [compare_bytes_padded 3 (by omega) (by omega), compare_bytes_cons,
    compare_bytes_padded 1 (by omega) (by omega), compare_bytes_cons, compare_bytes_padded 1 (by omega) (by omega),
    compare_bytes_cons, compare_bytes_padded 1 (by omega) (by omega), compare_bytes_cons,
    compare_bytes_padded 1 (by omega) (by omega), compare_bytes_cons, compare_bytes_padded 1 (by omega) (by omega),
    compare_bytes_fraction hf hf' hlen]

theorem format_lt {micros micros' : Int} (hlt : micros < micros')
    (hyear : 0 ≤ (civilFromDays (micros / microsPerDay)).1 ∧ (civilFromDays (micros / microsPerDay)).1 ≤ 9999)
    (hyear' : 0 ≤ (civilFromDays (micros' / microsPerDay)).1 ∧ (civilFromDays (micros' / microsPerDay)).1 ≤ 9999)
    (hlen : (fractionOf micros).length = (fractionOf micros').length) :
    (Value.text (format micros)).cmp (.text (format micros')) = .lt := by
  have hday : ∀ m : Int, 0 ≤ m % microsPerDay ∧ m % microsPerDay < microsPerDay := by
    intro m
    unfold microsPerDay microsPerSecond secondsPerDay
    omega
  have hdate : FourDigits (civilFromDays (micros / microsPerDay)) := ⟨hyear, isDate_civilFromDays _⟩
  have hdate' : FourDigits (civilFromDays (micros' / microsPerDay)) := ⟨hyear', isDate_civilFromDays _⟩
  obtain ⟨hour, minute, second, f, hc, hu, htext⟩ := exists_clock (hday micros)
  obtain ⟨hour', minute', second', f', hc', hu', htext'⟩ := exists_clock (hday micros')
  rw [fractionOf_eq hc hu, fractionOf_eq hc' hu'] at hlen
  rw [format_eq, format_eq, htext, htext', cmp_text hdate hdate' hc hc' hlen]
  have hle : micros / microsPerDay ≤ micros' / microsPerDay := Int.ediv_le_ediv (by decide) (by omega)
  rcases Int.lt_or_eq_of_le hle with hdays | hdays
  · -- an earlier day
    have hrank := dateRank_civilFromDays hdays
    have hd31 := hdate.isDate.day_le
    have hd31' := hdate'.isDate.day_le
    obtain ⟨-, hm, hd, -⟩ := hdate
    obtain ⟨-, hm', hd', -⟩ := hdate'
    unfold dateRank at hrank
    generalize civilFromDays (micros / microsPerDay) = date at *
    generalize civilFromDays (micros' / microsPerDay) = date' at *
    by_cases hy : date.1 < date'.1
    · exact then_lt_of_lex (.inl hy)
    · refine then_lt_of_lex (.inr ⟨by omega, ?_⟩)
      by_cases hmonth : date.2.1 < date'.2.1
      · exact then_lt_of_lex (.inl hmonth)
      · exact then_lt_of_lex (.inr ⟨by omega, then_lt_of_lex (.inl (by omega))⟩)
  · -- an earlier time of the same day
    have hless : micros % microsPerDay < micros' % microsPerDay := by
      have h := Int.mul_ediv_add_emod micros microsPerDay
      have h' := Int.mul_ediv_add_emod micros' microsPerDay
      rw [hdays] at h
      omega
    rw [hu, hu'] at hless
    obtain ⟨hh, hmi, hs, hf⟩ := hc
    obtain ⟨hh', hmi', hs', hf'⟩ := hc'
    unfold microsPerSecond at hless
    rw [hdays]
    refine then_lt_of_lex (.inr ⟨rfl, then_lt_of_lex (.inr ⟨rfl, then_lt_of_lex (.inr ⟨rfl, ?_⟩)⟩)⟩)
    by_cases hhour : hour < hour'
    · exact then_lt_of_lex (.inl hhour)
    · refine then_lt_of_lex (.inr ⟨by omega, ?_⟩)
      by_cases hminute : minute < minute'
      · exact then_lt_of_lex (.inl hminute)
      · refine then_lt_of_lex (.inr ⟨by omega, ?_⟩)
        by_cases hsecond : second < second'
        · exact then_lt_of_lex (.inl hsecond)
        · exact then_lt_of_lex (.inr ⟨by omega, Int.compare_eq_lt.mpr (by omega)⟩)

/-- Days and dates are the same thing written in two ways, every time is printed, and a time
whose year has four digits is read back and sorted by its text. -/
theorem timestamps_keep :
    (∀ days, IsDate (civilFromDays days).1 (civilFromDays days).2.1 (civilFromDays days).2.2 ∧
      daysFromCivil (civilFromDays days).1 (civilFromDays days).2.1 (civilFromDays days).2.2 = days) ∧
    (∀ year month day, IsDate year month day → civilFromDays (daysFromCivil year month day) = (year, month, day) ∧
      IsDate (nextDate year month day).1 (nextDate year month day).2.1 (nextDate year month day).2.2 ∧
      daysFromCivil (nextDate year month day).1 (nextDate year month day).2.1 (nextDate year month day).2.2 =
        daysFromCivil year month day + 1) ∧
    (∀ micros, inI64 micros → formatBy i64 micros = some (format micros)) ∧
    (∀ micros, inI64 micros → 0 ≤ (civilFromDays (micros / microsPerDay)).1 →
      (civilFromDays (micros / microsPerDay)).1 ≤ 9999 →
      parse (format micros) = .ok micros ∧
      ∀ micros', inI64 micros' → 0 ≤ (civilFromDays (micros' / microsPerDay)).1 →
      (civilFromDays (micros' / microsPerDay)).1 ≤ 9999 →
        (fractionOf micros).length = (fractionOf micros').length → micros < micros' →
        (Value.text (format micros)).cmp (.text (format micros')) = .lt) := by
  refine ⟨fun days => ⟨isDate_civilFromDays days, daysFromCivil_civilFromDays days⟩, fun year month day h => ?_,
    fun micros h => formatBy_i64 h, ?_⟩
  · exact ⟨civilFromDays_daysFromCivil h, isDate_nextDate h, daysFromCivil_nextDate h⟩
  · intro micros h hlow hhigh
    refine ⟨parse_format h ⟨hlow, hhigh⟩, ?_⟩
    intro micros' _ hlow' hhigh' hlen hlt
    exact format_lt hlt ⟨hlow, hhigh⟩ ⟨hlow', hhigh'⟩ hlen

end Cmudb.Sql.Timestamp
