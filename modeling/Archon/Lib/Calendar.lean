/-!
# Archon.Lib.Calendar

The proleptic Gregorian calendar: dates, the days between them, and the count
of days by eras of 400 years that begin in March.
-/

namespace Archon.Calendar

def isLeap (year : Int) : Bool := year % 4 = 0 ∧ (year % 100 ≠ 0 ∨ year % 400 = 0)

def monthLength (leap : Bool) : Nat → Nat
  | 2 => if leap then 29 else 28
  | 4 | 6 | 9 | 11 => 30
  | _ => 31

/-- The days of the months before this one. -/
def daysBeforeMonth (leap : Bool) : Nat → Nat
  | 0 | 1 => 0
  | m + 2 => daysBeforeMonth leap (m + 1) + monthLength leap (m + 1)

/-- The days from the year 1 on; negative before. -/
def daysBeforeYear (year : Int) : Int :=
  365 * (year - 1) + (year - 1) / 4 - (year - 1) / 100 + (year - 1) / 400

@[ext]
structure Date where
  year : Int
  month : Nat
  day : Nat
  month_range : 1 ≤ month ∧ month ≤ 12
  day_range : 1 ≤ day ∧ day ≤ monthLength (isLeap year) month

namespace Date

/-- The number of days since 1970-01-01. -/
def dayNumber (a : Date) : Int :=
  daysBeforeYear a.year + daysBeforeMonth (isLeap a.year) a.month + (a.day - 1) -
    daysBeforeYear 1970

/-- Years first, then months, then days. -/
def Before (a b : Date) : Prop :=
  a.year < b.year ∨ a.year = b.year ∧ (a.month < b.month ∨ a.month = b.month ∧ a.day < b.day)

end Date

/-! ## Later dates have greater numbers -/

theorem daysBeforeYear_succ (year : Int) :
    daysBeforeYear (year + 1) = daysBeforeYear year + daysBeforeMonth (isLeap year) 13 := by
  unfold daysBeforeYear
  cases h : isLeap year <;> simp [isLeap, daysBeforeMonth, monthLength] at h ⊢ <;> omega

theorem daysBeforeYear_mono {y y' : Int} (h : y ≤ y') : daysBeforeYear y ≤ daysBeforeYear y' := by
  unfold daysBeforeYear
  omega

theorem daysBeforeMonth_add_le : ∀ leap, ∀ m' ≤ 13, ∀ m < m', 1 ≤ m →
    daysBeforeMonth leap m + monthLength leap m ≤ daysBeforeMonth leap m' := by
  decide

theorem Date.dayNumber_lt {a b : Date} (h : a.Before b) : a.dayNumber < b.dayNumber := by
  have hb := b.day_range.1
  have ha := a.day_range.2
  unfold dayNumber
  obtain hy | ⟨hy, hm | ⟨hm, hd⟩⟩ := h
  · have hend := daysBeforeMonth_add_le (isLeap a.year) 13 (by omega) a.month
      (by have := a.month_range.2; omega) a.month_range.1
    have hnext := daysBeforeYear_succ a.year
    have hmono := daysBeforeYear_mono (Int.add_one_le_of_lt hy)
    omega
  · have hmonth := daysBeforeMonth_add_le (isLeap a.year) b.month
      (by have := b.month_range.2; omega) a.month hm a.month_range.1
    grind
  · grind

theorem Date.before_trichotomy (a b : Date) : a.Before b ∨ a = b ∨ b.Before a := by
  have hext := @Date.ext a b
  unfold Before
  grind

theorem Date.dayNumber_inj {a b : Date} (h : a.dayNumber = b.dayNumber) : a = b := by
  obtain hab | hab | hab := a.before_trichotomy b
  · exact absurd (dayNumber_lt hab) (by omega)
  · exact hab
  · exact absurd (dayNumber_lt hab) (by omega)

theorem Date.before_iff {a b : Date} : a.Before b ↔ a.dayNumber < b.dayNumber := by
  refine ⟨dayNumber_lt, fun h => ?_⟩
  obtain hab | rfl | hab := a.before_trichotomy b
  · exact hab
  · omega
  · exact absurd (dayNumber_lt hab) (by omega)

theorem Date.dayNumber_range {a : Date} (h : -9999 ≤ a.year ∧ a.year ≤ 9999) :
    a.dayNumber.natAbs ≤ 10000000 := by
  have hend := daysBeforeMonth_add_le (isLeap a.year) 13 (by omega) a.month
    (by have := a.month_range.2; omega) a.month_range.1
  have hyear : daysBeforeMonth (isLeap a.year) 13 ≤ 366 := by
    cases isLeap a.year <;> decide
  have hday := a.day_range
  unfold dayNumber daysBeforeYear
  omega

/-! ## Eras -/

/-- A day of an era: 4 centuries, each of 25 times 4 years that begin in March.
The 29th of February is the last day of its year. -/
structure EraDay (century cycle year day : Int) : Prop where
  century_range : 0 ≤ century ∧ century ≤ 3
  cycle_range : 0 ≤ cycle ∧ cycle ≤ 24
  year_range : 0 ≤ year ∧ year ≤ 3
  day_range : 0 ≤ day ∧ day ≤ 365
  leap : day = 365 → year = 3 ∧ (cycle = 24 → century = 3)

theorem exists_eraDay (doe : Int) (h0 : 0 ≤ doe) (h1 : doe < 146097) :
    ∃ c k j doy, EraDay c k j doy ∧ doe = 36524 * c + 1461 * k + 365 * j + doy := by
  obtain ⟨c, hc⟩ : ∃ c, c = min (doe / 36524) 3 := ⟨_, rfl⟩
  obtain ⟨k, hk⟩ : ∃ k, k = (doe - 36524 * c) / 1461 := ⟨_, rfl⟩
  obtain ⟨j, hj⟩ : ∃ j, j = min ((doe - 36524 * c - 1461 * k) / 365) 3 := ⟨_, rfl⟩
  refine ⟨c, k, j, doe - 36524 * c - 1461 * k - 365 * j, ?_, by omega⟩
  constructor <;> omega

/-- The year of the era, by division. -/
theorem EraDay.year_eq {c k j doy : Int} (h : EraDay c k j doy) {doe : Int}
    (hdoe : doe = 36524 * c + 1461 * k + 365 * j + doy) :
    (doe - doe / 1460 + doe / 36524 - doe / 146096) / 365 = 100 * c + 4 * k + j := by
  obtain ⟨hc, hk, hj, hd, hl⟩ := h
  have hcentury : 1461 * k + 365 * j + doy < 36524 ∨ c = 3 ∧ doe = 146096 := by omega
  have hdays : doe / 36524 - doe / 146096 = c := by
    obtain h | h := hcentury
    · have hc' : doe / 36524 = c := by omega
      omega
    · omega
  omega

/-- From March on a month begins after the days of those before it. -/
theorem daysBeforeMonth_march : ∀ leap, ∀ mp < 10,
    daysBeforeMonth leap (mp + 3) = (153 * mp + 2) / 5 + 59 + leap.toNat ∧
      (153 * mp + 2) / 5 + monthLength leap (mp + 3) = (153 * (mp + 1) + 2) / 5 := by
  decide

/-- The date of a day of an era. -/
theorem EraDay.exists_date {c k j doy mp : Int} (h : EraDay c k j doy) (era : Int)
    (hmp : mp = (5 * doy + 2) / 153) :
    ∃ a : Date, a.year = 400 * era + 100 * c + 4 * k + j + (if mp < 10 then 0 else 1) ∧
      (a.month : Int) = (if mp < 10 then mp + 3 else mp - 9) ∧
      (a.day : Int) = doy - (153 * mp + 2) / 5 + 1 ∧
      a.dayNumber = 146097 * era + 36524 * c + 1461 * k + 365 * j + doy - 719468 := by
  obtain ⟨hc, hk, hj, hd, hl⟩ := h
  obtain ⟨day, hday⟩ := Int.eq_ofNat_of_zero_le (show 0 ≤ doy - (153 * mp + 2) / 5 + 1 by omega)
  suffices hdate : ∀ (y : Int) (m : Nat),
      y = 400 * era + 100 * c + 4 * k + j + (if mp < 10 then 0 else 1) →
      (m : Int) = (if mp < 10 then mp + 3 else mp - 9) → day ≤ monthLength (isLeap y) m ∧
        daysBeforeYear y + daysBeforeMonth (isLeap y) m + (day - 1) =
          146097 * era + 36524 * c + 1461 * k + 365 * j + doy - 306 by
    obtain ⟨m, hm⟩ := Int.eq_ofNat_of_zero_le (show 0 ≤ if mp < 10 then mp + 3 else mp - 9 by
      split <;> omega)
    obtain ⟨hle, hnumber⟩ := hdate _ m rfl hm.symm
    refine ⟨⟨_, m, day, by split at hm <;> omega, by omega, hle⟩, rfl, hm.symm, hday.symm, ?_⟩
    have hepoch : daysBeforeYear 1970 = 719162 := by decide
    simp only [Date.dayNumber]
    omega
  intro y m hy hm
  unfold daysBeforeYear
  split at hy <;> rename_i hlt
  · rw [if_pos hlt] at hm
    obtain ⟨n, rfl⟩ := Int.eq_ofNat_of_zero_le (show 0 ≤ mp by omega)
    obtain rfl : m = n + 3 := by omega
    obtain ⟨hbefore, hlength⟩ := daysBeforeMonth_march (isLeap y) n (by omega)
    rw [hbefore]
    have hstart : (153 * (n : Int) + 2) / 5 = ((153 * n + 2) / 5 : Nat) := by omega
    generalize monthLength (isLeap y) (n + 3) = length at hlength ⊢
    cases hleap : isLeap y <;> simp [isLeap] at hleap ⊢ <;> omega
  · rw [if_neg hlt] at hm
    obtain rfl | rfl : m = 1 ∨ m = 2 := by omega
    · simp [daysBeforeMonth, monthLength]
      omega
    · cases hleap : isLeap y <;> simp [isLeap, daysBeforeMonth, monthLength] at hleap ⊢ <;> omega

end Archon.Calendar
