import Archon.Lib.Calendar
import Archon.Relational.Expr

/-!
# Archon.Relational.DateTime

Day numbers as dates, and `EXTRACT` on dates and timestamps.
-/

namespace Archon

open Calendar

/-! ## Arithmetic that stays in range -/

theorem bmod_of_fits {n : Int} (h : -2 ^ 63 ≤ n ∧ n < 2 ^ 63) : n.bmod (2 ^ 64) = n :=
  Int.bmod_eq_of_le (by omega) (by omega)

section

variable {a b : Int64} {m n : Int} (ha : a.toInt = m) (hb : b.toInt = n)
include ha hb

theorem toInt_add_of (h : -2 ^ 63 ≤ m + n ∧ m + n < 2 ^ 63) : (a + b).toInt = m + n := by
  rw [Int64.toInt_add, ha, hb, bmod_of_fits h]

theorem toInt_sub_of (h : -2 ^ 63 ≤ m - n ∧ m - n < 2 ^ 63) : (a - b).toInt = m - n := by
  rw [Int64.toInt_sub, ha, hb, bmod_of_fits h]

theorem toInt_mul_of (h : -2 ^ 63 ≤ m * n ∧ m * n < 2 ^ 63) : (a * b).toInt = m * n := by
  rw [Int64.toInt_mul, ha, hb, bmod_of_fits h]

/-- Truncation does not show on what is not negative, or divided without rest. -/
theorem toInt_div_of (h : 0 ≤ m ∨ -2 ^ 63 < m ∧ n ∣ m) : (a / b).toInt = m / n := by
  subst ha hb
  have hne : a ≠ Int64.minValue := by
    rintro rfl
    exact absurd h (by simp)
  rw [Int64.toInt_div_of_ne_left a b hne, Int.tdiv_eq_ediv, if_pos (h.imp_right And.right),
    Int.add_zero]

theorem toInt_mod_of (h : 0 ≤ m ∨ n ∣ m) : (a % b).toInt = m % n := by
  simp [Int64.toInt_mod, Int.tmod_eq_emod, ha, hb, h]

end

/-- The 400 years of a day, counted from March 1, 0000. -/
theorem era_toInt {z : Int64} (h : z.toInt.natAbs ≤ 10 ^ 16) :
    ((if z ≥ 0 then z else z - 146096) / 146097).toInt = z.toInt / 146097 := by
  by_cases hpos : z ≥ 0
  · simp [hpos, toInt_div_of rfl rfl (.inl (Int64.le_iff_toInt_le.mp hpos))]
  · have hneg : z.toInt < 0 := by simpa [Int64.le_iff_toInt_le] using hpos
    have hsub : (z - 146096).toInt = z.toInt - 146096 := toInt_sub_of rfl rfl (by omega)
    have hsign : Int.sign 146097 = 1 := rfl
    rw [if_neg hpos, Int64.toInt_div, hsub, Int.tdiv_eq_ediv, bmod_of_fits] <;>
      simp [hsign] <;> omega

/-- A day number in range is read as its date. -/
theorem civilFromDays_date {days : Int64} (h : days.toInt.natAbs ≤ 10 ^ 15) :
    ∃ a : Date, (civilFromDays days).1.toInt = a.year ∧ (civilFromDays days).2.1.toInt = a.month ∧
      (civilFromDays days).2.2.toInt = a.day ∧ a.dayNumber = days.toInt := by
  have hz : (days + 719468).toInt = days.toInt + 719468 := toInt_add_of rfl rfl (by omega)
  simp only [civilFromDays]
  generalize days + 719468 = z at hz ⊢
  have hera := @era_toInt z (by omega)
  generalize (if z ≥ 0 then z else z - 146096) / 146097 = era at hera ⊢
  have hdoe : (z - era * 146097).toInt = z.toInt - z.toInt / 146097 * 146097 :=
    toInt_sub_of rfl (toInt_mul_of hera rfl (by omega)) (by omega)
  generalize z - era * 146097 = doe at hdoe ⊢
  obtain ⟨c, k, j, doy, hday, hsum⟩ := exists_eraDay doe.toInt (by omega) (by omega)
  have hdiv {b : Int64} {n : Int} (hb : b.toInt = n) : (doe / b).toInt = doe.toInt / n :=
    toInt_div_of rfl hb (.inl (by omega))
  have hyoe : ((doe - doe / 1460 + doe / 36524 - doe / 146096) / 365).toInt = _ / 365 :=
    toInt_div_of (toInt_sub_of (toInt_add_of (toInt_sub_of rfl (hdiv (n := 1460) rfl) (by omega))
      (hdiv (n := 36524) rfl) (by omega)) (hdiv (n := 146096) rfl) (by omega)) rfl (.inl (by omega))
  rw [hday.year_eq hsum] at hyoe
  generalize (doe - doe / 1460 + doe / 36524 - doe / 146096) / 365 = yoe at hyoe ⊢
  obtain ⟨hc, hk, hj, hd, -⟩ := id hday
  have hfour : (yoe / 4).toInt = 25 * c + k :=
    (toInt_div_of hyoe (n := 4) rfl (.inl (by omega))).trans (by omega)
  have hhundred : (yoe / 100).toInt = c :=
    (toInt_div_of hyoe (n := 100) rfl (.inl (by omega))).trans (by omega)
  have hdoy : (doe - (365 * yoe + yoe / 4 - yoe / 100)).toInt = doy := by
    rw [toInt_sub_of rfl (toInt_sub_of (toInt_add_of (toInt_mul_of rfl hyoe (m := 365) (by omega))
      hfour (by omega)) hhundred (by omega)) (by omega)]
    omega
  generalize doe - (365 * yoe + yoe / 4 - yoe / 100) = dayOfYear at hdoy ⊢
  have hmp : ((5 * dayOfYear + 2) / 153).toInt = (5 * doy + 2) / 153 :=
    toInt_div_of (toInt_add_of (toInt_mul_of rfl hdoy (by omega)) rfl (by omega)) rfl
      (.inl (by omega))
  generalize (5 * dayOfYear + 2) / 153 = mp at hmp ⊢
  have hmonth : (if mp < 10 then mp + 3 else mp - 9).toInt =
      if mp.toInt < 10 then mp.toInt + 3 else mp.toInt - 9 := by
    have hlt : mp < 10 ↔ mp.toInt < 10 := Int64.lt_iff_toInt_lt
    rw [apply_ite Int64.toInt, toInt_add_of rfl rfl (n := 3) (by omega),
      toInt_sub_of rfl rfl (n := 9) (by omega)]
    simp only [hlt]
  have hdayOf : (dayOfYear - (153 * mp + 2) / 5 + 1).toInt = doy - (153 * mp.toInt + 2) / 5 + 1 :=
    toInt_add_of
      (toInt_sub_of hdoy (toInt_div_of (toInt_add_of (toInt_mul_of rfl rfl (by omega)) rfl
      (by omega)) rfl (.inl (by omega))) (by omega)) rfl (by omega)
  generalize (if mp < 10 then mp + 3 else mp - 9) = month at hmonth ⊢
  have hle : month ≤ 2 ↔ month.toInt ≤ 2 := Int64.le_iff_toInt_le
  have hyear : (if month ≤ 2 then yoe + era * 400 + 1 else yoe + era * 400).toInt =
      400 * era.toInt + 100 * c + 4 * k + j + if mp.toInt < 10 then 0 else 1 := by
    have hsum : (yoe + era * 400).toInt = 100 * c + 4 * k + j + z.toInt / 146097 * 400 :=
      toInt_add_of hyoe (toInt_mul_of hera rfl (by omega)) (by omega)
    rw [apply_ite Int64.toInt, toInt_add_of hsum (n := 1) rfl (by omega), hsum]
    simp only [hle]
    split_ifs at hmonth ⊢ <;> omega
  obtain ⟨a, hy, hm, hd', hnumber⟩ := hday.exists_date era.toInt hmp
  exact ⟨a, hyear.trans hy.symm, hmonth.trans hm.symm, hdayOf.trans hd'.symm, by omega⟩

/-- The triple is this date. -/
def IsDate (ymd : Int64 × Int64 × Int64) (a : Date) : Prop :=
  ymd.1.toInt = a.year ∧ ymd.2.1.toInt = a.month ∧ ymd.2.2.toInt = a.day

theorem IsDate.lex {ymd ymd' : Int64 × Int64 × Int64} {a b : Date} (h : IsDate ymd a)
    (h' : IsDate ymd' b) (hab : a.Before b) :
    Prod.Lex (· < ·) (Prod.Lex (· < ·) (· < ·)) ymd ymd' := by
  simp only [Prod.lex_def, Int64.lt_iff_toInt_lt, ← Int64.toInt_inj]
  grind [IsDate, Date.Before]

/-- A day number is read as the one date that has it, and later days as later dates. -/
theorem civilFromDays_calendar {days : Int64} (h : days.toInt.natAbs ≤ 10 ^ 15) :
    (∃ a : Date, IsDate (civilFromDays days) a ∧ a.dayNumber = days.toInt ∧
        ∀ b : Date, b.dayNumber = days.toInt → b = a) ∧
      ∀ other : Int64, other.toInt.natAbs ≤ 10 ^ 15 →
        (civilFromDays other = civilFromDays days → other = days) ∧
          (days < other → Prod.Lex (· < ·) (Prod.Lex (· < ·) (· < ·)) (civilFromDays days)
            (civilFromDays other)) := by
  obtain ⟨a, hy, hm, hd, hnumber⟩ := civilFromDays_date h
  refine ⟨⟨a, ⟨hy, hm, hd⟩, hnumber, fun b hb => Date.dayNumber_inj (hb.trans hnumber.symm)⟩,
    fun other hother => ?_⟩
  obtain ⟨b, hy', hm', hd', hnumber'⟩ := civilFromDays_date hother
  refine ⟨fun heq => ?_, fun hlt => ?_⟩
  · have hab : b = a := by
      rw [heq] at hy' hm' hd'
      ext <;> omega
    rw [← Int64.toInt_inj, ← hnumber', ← hnumber, hab]
  · refine IsDate.lex ⟨hy, hm, hd⟩ ⟨hy', hm', hd'⟩ (Date.before_iff.mpr ?_)
    rwa [hnumber, hnumber', ← Int64.lt_iff_toInt_lt]

/-- The day of the moon landing. -/
theorem civilFromDays_calendar_july :
    civilFromDays (-165) = (1969, 7, 20) ∧ ∃ a : Date, IsDate (civilFromDays (-165)) a ∧
      a.dayNumber = -165 := by
  obtain ⟨⟨a, hdate, hnumber, -⟩, -⟩ :=
    civilFromDays_calendar (show (-165 : Int64).toInt.natAbs ≤ 10 ^ 15 by decide)
  exact ⟨by decide +kernel, a, hdate, hnumber⟩

/-! ## Fields of dates and timestamps -/

/-- A value of a `DATE` or a `TIMESTAMP` column. -/
inductive Moment where
  | date (days : Int64)
  | timestamp (micros : Int64)

namespace Moment

/-- The integer that is stored. -/
def value : Moment → Int64
  | date days => days
  | timestamp micros => micros

/-- The number of its day, and the microseconds of the day that have passed. -/
def instant : Moment → Int × Int
  | date days => (days.toInt, 0)
  | timestamp micros => (micros.toInt / 86400000000, micros.toInt % 86400000000)

/-- A field of the instant, whose day is `a`. -/
def field (m : Moment) (a : Date) : DateTimeField → Int
  | .year => a.year
  | .month => a.month
  | .day => a.day
  | .hour => m.instant.2 / 3600000000
  | .minute => m.instant.2 / 60000000 % 60
  | .second => m.instant.2 / 1000000 % 60

/-- `EXTRACT` takes the value for what it is, and the time for one after 1970 or for midnight. -/
def Unambiguous : Moment → Prop
  | date _ => True
  | timestamp micros => 10 ^ 12 ≤ micros.toInt ∨
      micros.toInt ≤ -10 ^ 12 ∧ MICROS_PER_DAY.toInt ∣ micros.toInt

end Moment

/-- The microseconds that `EXTRACT` works with. -/
def extractMicros (value : Int64) : Int64 :=
  if value.toInt.natAbs < DAYS_LIKE_THRESHOLD then saturatingMul value MICROS_PER_DAY else value

theorem extractMicros_toInt (v : Int64) : (extractMicros v).toInt =
    if v.toInt.natAbs < 1000000000000 then
      max (-2 ^ 63) (min (v.toInt * 86400000000) (2 ^ 63 - 1))
    else v.toInt := by
  have hmax : Int64.maxValue.toInt = 2 ^ 63 - 1 := rfl
  have hmin : Int64.minValue.toInt = -2 ^ 63 := rfl
  have hday : MICROS_PER_DAY.toInt = 86400000000 := rfl
  simp only [extractMicros, saturatingMul, hmax, hmin, hday, DAYS_LIKE_THRESHOLD]
  split_ifs
  · omega
  · omega
  · rw [toInt_mul_of rfl hday (by omega)]; omega
  · rfl

/-- The instant that `EXTRACT` works with is the right one. -/
theorem Moment.extractMicros_eq {m : Moment} (hm : m.Unambiguous ∨ m.value = 0)
    (hday : m.instant.1.natAbs ≤ 10 ^ 7) :
    (extractMicros m.value).toInt = m.instant.1 * 86400000000 + m.instant.2 ∧
      (0 ≤ (extractMicros m.value).toInt ∨ m.instant.2 = 0) := by
  have hdays : MICROS_PER_DAY.toInt = 86400000000 := rfl
  replace hm : m.Unambiguous ∨ m.value.toInt = 0 := hm.imp_right fun h => by rw [h]; rfl
  cases m with
  | date days =>
    simp only [instant, value, extractMicros_toInt, or_true, and_true] at hday ⊢
    omega
  | timestamp micros =>
    simp only [instant, value, extractMicros_toInt, Unambiguous, hdays] at hm hday ⊢
    split_ifs <;> omega

/-- Dividing the right instant gives its fields. -/
theorem Moment.extract_eq {m : Moment} {a : Date} {field : DateTimeField}
    (hm : m.Unambiguous ∨ m.value = 0) (ha : a.dayNumber = m.instant.1)
    (hday : m.instant.1.natAbs ≤ 10 ^ 7) (hfield : field = .second → m.value = 0) :
    (extractDatetimeField field m.value).toInt = m.field a field := by
  obtain ⟨hmicros, hexact⟩ := extractMicros_eq hm hday
  have htime : 0 ≤ m.instant.2 ∧ m.instant.2 < 86400000000 := by
    cases m <;> simp only [instant] <;> omega
  generalize hv : extractMicros m.value = micros at hmicros hexact
  have hdate : (micros / MICROS_PER_DAY).toInt = micros.toInt / 86400000000 :=
    toInt_div_of rfl rfl (by omega)
  have hsecs : (micros / 1000000).toInt = micros.toInt / 1000000 := toInt_div_of rfl rfl (by omega)
  have hhour : (micros / 1000000 / 3600 % 24).toInt = micros.toInt / 1000000 / 3600 % 24 :=
    toInt_mod_of (toInt_div_of hsecs rfl (by omega)) rfl (by omega)
  have hminute : (micros / 1000000 / 60 % 60).toInt = micros.toInt / 1000000 / 60 % 60 :=
    toInt_mod_of (toInt_div_of hsecs rfl (by omega)) rfl (by omega)
  obtain ⟨b, hyear, hmonth, hdayOf, hb⟩ :=
    civilFromDays_date (show (micros / MICROS_PER_DAY).toInt.natAbs ≤ 10 ^ 15 by omega)
  obtain rfl : b = a := Date.dayNumber_inj (by omega)
  subst hv
  cases field with
  | year => exact hyear
  | month => exact hmonth
  | day => exact hdayOf
  | hour =>
    refine hhour.trans ?_
    simp only [Moment.field]
    omega
  | minute =>
    refine hminute.trans ?_
    simp only [Moment.field]
    omega
  | second =>
    have hzero : (extractMicros m.value).toInt = 0 := by rw [hfield rfl]; rfl
    refine hsecs.trans ?_
    grind [Moment.field]

/-- The seconds are those since 1970. -/
theorem eq_zero_of_second {v : Int64} (h : 0 ≤ (extractDatetimeField .second v).toInt)
    (h' : (extractDatetimeField .second v).toInt < 60) : v = 0 := by
  have hsecs : (extractDatetimeField .second v).toInt = (extractMicros v).toInt.tdiv 1000000 :=
    Int64.toInt_div_of_ne_right _ _ (by decide)
  have hsign : Int.sign 1000000 = 1 := rfl
  rw [← Int64.toInt_inj]
  rw [hsecs, Int.tdiv_eq_ediv, extractMicros_toInt, hsign] at h h'
  simp
  split_ifs at h h' <;> omega

/-- `EXTRACT` gives every field only for the stored value 0.  All but the seconds are right for
dates, for timestamps from 12 days after 1970 on, and for midnights as long before. -/
theorem extract_calendar_iff (m : Moment) {a : Date} (ha : a.dayNumber = m.instant.1)
    (hyear : -9999 ≤ a.year ∧ a.year ≤ 9999) :
    ((∀ field, (extractDatetimeField field m.value).toInt = m.field a field) ↔ m.value = 0) ∧
      (m.Unambiguous → ∀ field, field ≠ .second →
        (extractDatetimeField field m.value).toInt = m.field a field) := by
  have hday : m.instant.1.natAbs ≤ 10 ^ 7 := ha ▸ Date.dayNumber_range hyear
  refine ⟨⟨fun h => ?_, fun h field => ?_⟩, fun hm field hfield => ?_⟩
  · have hsecond := h .second
    simp only [Moment.field] at hsecond
    exact eq_zero_of_second (by omega) (by omega)
  · exact Moment.extract_eq (.inr h) ha hday fun _ => h
  · exact Moment.extract_eq (.inl hm) ha hday fun h => absurd h hfield

/-- 2000-01-01 12:00:00. -/
def newYearsNoon : Moment := .timestamp 946728000000000

def newYearsDay : Date := ⟨2000, 1, 1, by decide, by decide⟩

theorem extract_calendar_iff_newYears :
    newYearsNoon.Unambiguous ∧ (extractDatetimeField .hour newYearsNoon.value).toInt = 12 := by
  have hm : newYearsNoon.Unambiguous := .inl (by decide)
  have hright := (extract_calendar_iff newYearsNoon (a := newYearsDay) (by decide) (by decide)).2 hm
  exact ⟨hm, hright .hour (by decide)⟩

/-- The second of that noon is read as 946728000, and the hour of 1969-12-31 23:00:00 as -4. -/
theorem extract_second_unbounded :
    extractDatetimeField .second newYearsNoon.value = 946728000 ∧
      newYearsNoon.field newYearsDay .second = 0 ∧
      extractDatetimeField .hour (Moment.timestamp (-3600000000)).value ≠ 23 := by
  decide +kernel

end Archon
