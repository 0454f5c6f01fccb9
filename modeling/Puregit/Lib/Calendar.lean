import Mathlib.Tactic.IntervalCases

/-! # The Gregorian calendar

Dates of the calendar, carried on before it was in use and before year 0.  A date is one of a month
that is long enough for it; `next` is the date of the day after.

Days are numbered from the first of March of year 0, so that the leap day is the last of a year.
The number of the next date is the next number, and every number is that of a date.
-/
namespace Puregit.Calendar

/-- Every fourth year is a leap year, but of the full centuries only every fourth. -/
def IsLeap (year : Int) : Prop := year % 4 = 0 ∧ (year % 100 = 0 → year % 400 = 0)

instance (year : Int) : Decidable (IsLeap year) := inferInstanceAs (Decidable (_ ∧ _))

/-- The days of a month. -/
def monthLength (year : Int) (month : Nat) : Nat :=
  if month = 2 then if IsLeap year then 29 else 28
  else if month = 4 ∨ month = 6 ∨ month = 9 ∨ month = 11 then 30
  else 31

/-- A date. -/
@[ext] structure Date where
  year : Int
  month : Nat
  day : Nat
  month_range : 1 ≤ month ∧ month ≤ 12
  day_range : 1 ≤ day ∧ day ≤ monthLength year month

theorem one_le_monthLength (year : Int) (month : Nat) : 1 ≤ monthLength year month := by
  unfold monthLength
  split
  · split <;> decide
  · split <;> decide

theorem monthLength_le (year : Int) (month : Nat) : monthLength year month ≤ 31 := by
  unfold monthLength
  split
  · split <;> decide
  · split <;> decide

theorem january_range : 1 ≤ 1 ∧ 1 ≤ 12 := by decide

namespace Date

/-- The date of the day after. -/
def next (D : Date) : Date :=
  if h : D.day < monthLength D.year D.month then
    ⟨D.year, D.month, D.day + 1, D.month_range, Nat.le_add_left 1 _, h⟩
  else if h : D.month < 12 then
    ⟨D.year, D.month + 1, 1, ⟨Nat.le_add_left 1 _, h⟩, le_rfl, one_le_monthLength _ _⟩
  else ⟨D.year + 1, 1, 1, january_range, le_rfl, one_le_monthLength _ _⟩

/-- The year, where it begins in March. -/
def marchYear (D : Date) : Int := if D.month ≤ 2 then D.year - 1 else D.year

/-- The months since March. -/
def marchMonth (D : Date) : Int := if D.month ≤ 2 then D.month + 9 else D.month - 3

/-- The day of the year that begins in March; five months have 153 days. -/
def marchDay (D : Date) : Int := (153 * D.marchMonth + 2) / 5 + D.day - 1

/-- The days from the first of March of year 0 to the first of March of a year. -/
def yearStart (y : Int) : Int := 365 * y + y / 4 - y / 100 + y / 400

/-- The number of a day. -/
def dayNumber (D : Date) : Int := yearStart D.marchYear + D.marchDay

/-- A year has a day more if the February in it has. -/
theorem yearStart_succ (y : Int) : yearStart (y + 1) = yearStart y + 365 + if IsLeap (y + 1) then
    1 else 0 := by
  by_cases h : IsLeap (y + 1)
  · rw [if_pos h]
    unfold IsLeap at h
    unfold yearStart
    omega
  · rw [if_neg h]
    unfold IsLeap at h
    unfold yearStart
    omega

/-- **The number of the next date is the next number.** -/
theorem dayNumber_next (D : Date) : D.next.dayNumber = D.dayNumber + 1 := by
  obtain ⟨year, month, day, ⟨hlo, hhi⟩, hday, hlength⟩ := D
  rw [next]
  split
  · rename_i h
    simp only [dayNumber, marchYear, marchDay, marchMonth]
    push_cast
    omega
  · rename_i hend
    simp only at hend
    obtain rfl : day = monthLength year month := by omega
    split
    · rename_i hmonth
      simp only at hmonth
      have hleap := yearStart_succ (year - 1)
      rw [Int.sub_add_cancel] at hleap
      simp only [dayNumber, marchYear, marchDay, marchMonth, monthLength]
      by_cases h : IsLeap year
      · rw [if_pos h] at hleap
        interval_cases month
        all_goals simp [h]
        all_goals omega
      · rw [if_neg h] at hleap
        interval_cases month
        all_goals simp [h]
        all_goals omega
    · rename_i hmonth
      simp only at hmonth
      obtain rfl : month = 12 := by omega
      simp [dayNumber, marchYear, marchDay, marchMonth, monthLength]
      omega

/-! ## Every day has a date -/

/-- The date some cycles of 400 years later. -/
def shift (D : Date) (cycles : Int) : Date :=
  ⟨D.year + 400 * cycles, D.month, D.day, D.month_range, by
    have hleap : IsLeap (D.year + 400 * cycles) ↔ IsLeap D.year := by
      unfold IsLeap
      omega
    have hlength : monthLength (D.year + 400 * cycles) D.month = monthLength D.year D.month := by
      simp only [monthLength, hleap]
    rw [hlength]
    exact D.day_range⟩

theorem dayNumber_shift (D : Date) (cycles : Int) :
    (D.shift cycles).dayNumber = D.dayNumber + 146097 * cycles := by
  simp only [dayNumber, shift, marchYear, marchDay, marchMonth, yearStart]
  split <;> omega

/-- **Every number is that of a date.** -/
theorem exists_dayNumber (n : Int) : ∃ D : Date, D.dayNumber = n := by
  -- the days from a first one on, and before it those some cycles later
  have hafter : ∀ k : Nat, ∃ D : Date, D.dayNumber = k := by
    intro k
    induction k with
    | zero => exact ⟨⟨0, 3, 1, by decide, by decide⟩, by decide⟩
    | succ k ih =>
        obtain ⟨D, hD⟩ := ih
        exact ⟨D.next, by rw [dayNumber_next, hD, Nat.cast_succ]⟩
  obtain ⟨D, hD⟩ := hafter (n + 146097 * n.natAbs).toNat
  refine ⟨D.shift (-n.natAbs), ?_⟩
  rw [dayNumber_shift, hD]
  omega

end Date
end Puregit.Calendar
