import Mathlib.Tactic

/-!
# The Gregorian calendar

Days are counted from the first day of the year one. A day's date is found by going through the
years, and then through the months of its year.
-/

namespace OrderbookEngine.Calendar

/-- A year with a leap day. -/
def IsLeap (year : ℤ) : Prop := year % 4 = 0 ∧ (year % 100 ≠ 0 ∨ year % 400 = 0)

instance : DecidablePred IsLeap :=
  fun year => inferInstanceAs (Decidable (year % 4 = 0 ∧ (year % 100 ≠ 0 ∨ year % 400 = 0)))

/-- The lengths of the months. -/
def monthLengths (year : ℤ) : List ℕ :=
  [31, if IsLeap year then 29 else 28, 31, 30, 31, 30, 31, 31, 30, 31, 30, 31]

/-- The length of a year. -/
def daysInYear (year : ℤ) : ℕ := if IsLeap year then 366 else 365

/-- The days in front of a year. -/
def daysBeforeYear (year : ℤ) : ℤ :=
  365 * (year - 1) + (year - 1) / 4 - (year - 1) / 100 + (year - 1) / 400

/-- The days of a year in front of a month, the first one being zero. -/
def daysBeforeMonth (year : ℤ) (month : ℕ) : ℕ := ((monthLengths year).take month).sum

theorem daysBeforeYear_add_one (year : ℤ) :
    daysBeforeYear (year + 1) = daysBeforeYear year + daysInYear year := by
  unfold daysBeforeYear daysInYear
  by_cases h : IsLeap year
  · rw [if_pos h]
    unfold IsLeap at h
    omega
  · rw [if_neg h]
    unfold IsLeap at h
    omega

theorem sum_monthLengths (year : ℤ) : (monthLengths year).sum = daysInYear year := by
  unfold monthLengths daysInYear
  split <;> rfl

/-- The year of a day that is counted from the start of a year, and the day in it. -/
def splitYears (year : ℤ) (days : ℕ) : ℤ × ℕ :=
  if days < daysInYear year then (year, days) else splitYears (year + 1) (days - daysInYear year)
termination_by days
decreasing_by
  have hpos : 0 < daysInYear year := by unfold daysInYear; split <;> decide
  omega

/-- The place of a day among consecutive lengths, and the day in it. -/
def splitLengths : List ℕ → ℕ → ℕ × ℕ
  | [], days => (0, days)
  | len :: lengths, days =>
    if days < len then (0, days)
    else ((splitLengths lengths (days - len)).1 + 1, (splitLengths lengths (days - len)).2)

theorem splitYears_spec (year : ℤ) (days : ℕ) :
    daysBeforeYear (splitYears year days).1 + (splitYears year days).2 =
        daysBeforeYear year + days ∧
      (splitYears year days).2 < daysInYear (splitYears year days).1 := by
  induction year, days using splitYears.induct with
  | case1 year days h =>
    rw [splitYears, if_pos h]
    exact ⟨rfl, h⟩
  | case2 year days h ih =>
    rw [splitYears, if_neg h]
    refine ⟨ih.1.trans ?_, ih.2⟩
    rw [daysBeforeYear_add_one]
    omega

theorem splitLengths_spec (lengths : List ℕ) (days : ℕ) :
    (lengths.take (splitLengths lengths days).1).sum + (splitLengths lengths days).2 = days ∧
      (days < lengths.sum → ∃ len, lengths[(splitLengths lengths days).1]? = some len ∧
        (splitLengths lengths days).2 < len) := by
  induction lengths generalizing days with
  | nil => exact ⟨by simp [splitLengths], fun h => absurd h (Nat.not_lt_zero _)⟩
  | cons len lengths ih =>
    rw [splitLengths]
    split
    · next h => exact ⟨by simp, fun _ => ⟨len, rfl, h⟩⟩
    · next h =>
      refine ⟨?_, fun hdays => ?_⟩
      · have hsum := (ih (days - len)).1
        rw [List.take_succ_cons, List.sum_cons]
        omega
      · rw [List.sum_cons] at hdays
        rw [List.getElem?_cons_succ]
        exact (ih (days - len)).2 (by omega)

/-- A date; months and days of the month are counted from zero. -/
structure Date where
  year : ℤ
  month : ℕ
  day : ℕ

/-- The date of a day counted from the start of a year. -/
def dateFrom (year : ℤ) (days : ℕ) : Date :=
  let years := splitYears year days
  let months := splitLengths (monthLengths years.1) years.2
  ⟨years.1, months.1, months.2⟩

/-- The days in front of a date. -/
def Date.daysBefore (date : Date) : ℤ :=
  daysBeforeYear date.year + daysBeforeMonth date.year date.month + date.day

section DateFrom

variable (year : ℤ) (days : ℕ)

/-- The days in front of the date of a day are the days in front of it. -/
theorem daysBefore_dateFrom :
    (dateFrom year days).daysBefore = daysBeforeYear year + days := by
  have hyear := (splitYears_spec year days).1
  have hmonth := (splitLengths_spec (monthLengths (splitYears year days).1)
    (splitYears year days).2).1
  rw [← hyear]
  dsimp only [dateFrom, Date.daysBefore, daysBeforeMonth]
  omega

theorem dateFrom_lt : (dateFrom year days).month < 12 ∧ (dateFrom year days).day < 31 := by
  obtain ⟨len, hget, hlt⟩ := (splitLengths_spec (monthLengths (splitYears year days).1)
    (splitYears year days).2).2 (by
      rw [sum_monthLengths]
      exact (splitYears_spec year days).2)
  have hlen : len ≤ 31 := by
    have hall : ∀ l ∈ monthLengths (splitYears year days).1, l ≤ 31 := by
      unfold monthLengths
      split <;> decide
    exact hall len (List.mem_of_getElem? hget)
  exact ⟨(List.getElem?_eq_some_iff.mp hget).1, hlt.trans_le hlen⟩

/-- Years pass with their days. -/
theorem year_dateFrom :
    year ≤ (dateFrom year days).year ∧ 365 * ((dateFrom year days).year - year) ≤ days := by
  show year ≤ (splitYears year days).1 ∧ 365 * ((splitYears year days).1 - year) ≤ days
  induction year, days using splitYears.induct with
  | case1 year days h =>
    rw [splitYears, if_pos h]
    omega
  | case2 year days h ih =>
    have hlen : 365 ≤ daysInYear year := by unfold daysInYear; split <;> decide
    rw [splitYears, if_neg h]
    omega

end DateFrom

end OrderbookEngine.Calendar
