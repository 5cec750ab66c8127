import Mathlib.Data.List.Basic
import Mathlib.Tactic.Common

namespace Newth.Library.Calendar

/-- A day of the Gregorian calendar; months count from 0 and days from 1. -/
structure Date where
  year : Int
  month : Nat
  day : Int
  deriving DecidableEq, Repr

def isLeap (year : Int) : Bool := year % 4 = 0 && (year % 100 ≠ 0 || year % 400 = 0)

/-- The number of days from 1 January 0 to 1 January of a year. -/
def yearStart (year : Int) : Int :=
  365 * year + (year + 3) / 4 - (year + 99) / 100 + (year + 399) / 400

/-- The year of a day, counted from 1 January 0. The mean length of a year gives it
up to one. -/
def yearOf (n : Int) : Int :=
  let guess := n * 400 / 146097
  if n < yearStart guess then guess - 1
  else if yearStart (guess + 1) ≤ n then guess + 1
  else guess

/-- The days of the year the months start on. -/
def monthStarts (leap : Bool) : List Int :=
  let late : Int := if leap then 1 else 0
  [0, 31, 59 + late, 90 + late, 120 + late, 151 + late, 181 + late, 212 + late, 243 + late,
    273 + late, 304 + late, 334 + late]

def monthStart (leap : Bool) (month : Nat) : Int := (monthStarts leap).getD month 0

/-- The month of a day of the year. -/
def monthOf (leap : Bool) (n : Int) : Nat := (monthStarts leap).countP (· ≤ n) - 1

/-- The date of a day, counted from 1 January 0. -/
def dateOf (n : Int) : Date :=
  let year := yearOf n
  let leap := isLeap year
  let month := monthOf leap (n - yearStart year)
  ⟨year, month, n - yearStart year - monthStart leap month + 1⟩

/-- The day of the week, counted from Sunday. -/
def weekday (n : Int) : Int := (n + 6) % 7

example : dateOf 719528 = ⟨1970, 0, 1⟩ ∧ weekday 719528 = 4 := by decide

theorem yearStart_succ (year : Int) :
    yearStart (year + 1) = yearStart year + if isLeap year then 366 else 365 := by
  simp only [yearStart, isLeap, Bool.and_eq_true, Bool.or_eq_true, decide_eq_true_eq]
  split
  · omega
  · omega

theorem yearStart_mono {y z : Int} (h : y ≤ z) : yearStart y ≤ yearStart z := by
  simp only [yearStart]
  omega

theorem yearOf_spec (n : Int) : yearStart (yearOf n) ≤ n ∧ n < yearStart (yearOf n + 1) := by
  simp only [yearOf]
  split
  · rename_i hearly
    rw [Int.sub_add_cancel]
    refine ⟨?_, hearly⟩
    simp only [yearStart]
    omega
  · rename_i hstart
    split
    · rename_i hlate
      refine ⟨hlate, ?_⟩
      simp only [yearStart]
      omega
    · rename_i hend
      exact ⟨Int.not_lt.mp hstart, Int.not_le.mp hend⟩

theorem yearOf_mono {n m : Int} (h : n ≤ m) : yearOf n ≤ yearOf m := by
  by_contra hlater
  have hstart := yearStart_mono (by omega : yearOf m + 1 ≤ yearOf n)
  have hn := (yearOf_spec n).1
  have hm := (yearOf_spec m).2
  omega

section Months

variable (leap : Bool) {n m : Int}

theorem monthOf_lt (n : Int) : monthOf leap n < 12 := by
  have hle := List.countP_le_length (p := fun start : Int => start ≤ n) (l := monthStarts leap)
  have hlength : (monthStarts leap).length = 12 := rfl
  rw [monthOf]
  omega

theorem monthOf_mono (h : n ≤ m) : monthOf leap n ≤ monthOf leap m := by
  have hmore : (monthStarts leap).countP (· ≤ n) ≤ (monthStarts leap).countP (· ≤ m) := by
    apply List.countP_mono_left
    intro start _ hstart
    simp only [decide_eq_true_eq] at hstart ⊢
    omega
  rw [monthOf, monthOf]
  omega

theorem getD_le_iff {starts : List Int} (hsorted : starts.Pairwise (· < ·)) {i : Nat}
    (hi : i < starts.length) : starts.getD i 0 ≤ n ↔ i < starts.countP (· ≤ n) := by
  induction starts generalizing i with
  | nil => exact absurd hi (Nat.not_lt_zero _)
  | cons start starts ih =>
      obtain ⟨hfirst, hrest⟩ := List.pairwise_cons.mp hsorted
      rw [List.countP_cons]
      by_cases hstart : start ≤ n
      · cases i with
        | zero => simp [hstart]
        | succ i =>
            rw [List.getD_cons_succ, ih hrest (Nat.lt_of_succ_lt_succ hi)]
            simp [hstart]
      · have hnone : starts.countP (· ≤ n) = 0 := by
          rw [List.countP_eq_zero]
          intro later hlater
          have hless := hfirst later hlater
          simp only [decide_eq_true_eq]
          omega
        cases i with
        | zero => simp [hstart, hnone]
        | succ i =>
            rw [List.getD_cons_succ, ih hrest (Nat.lt_of_succ_lt_succ hi)]
            simp [hstart, hnone]

theorem monthOf_spec (hn : 0 ≤ n) :
    monthStart leap (monthOf leap n) ≤ n ∧
      (n < (if leap then 366 else 365) → n < monthStart leap (monthOf leap n) + 31) := by
  have hsorted : (monthStarts leap).Pairwise (· < ·) := by
    cases leap <;> decide
  have hlength : (monthStarts leap).length = 12 := rfl
  have hiff : ∀ i < 12, monthStart leap i ≤ n ↔ i < (monthStarts leap).countP (· ≤ n) :=
    fun i hi => getD_le_iff hsorted hi
  have hpositive := (hiff 0 (by decide)).mp hn
  have hlt := monthOf_lt leap n
  refine ⟨(hiff _ hlt).mpr (by rw [monthOf]; omega), fun hyear => ?_⟩
  rcases Nat.lt_or_ge (monthOf leap n) 11 with hmore | hlast
  · -- the next month starts behind the day
    have hnext : ¬ monthStart leap (monthOf leap n + 1) ≤ n := by
      rw [hiff _ (by omega), monthOf]
      omega
    have htable : ∀ i < 11, monthStart leap (i + 1) ≤ monthStart leap i + 31 := by
      cases leap <;> decide
    have hstep := htable _ hmore
    omega
  · have hdecember : monthOf leap n = 11 := by omega
    rw [hdecember]
    cases leap with
    | false => exact hyear
    | true => exact hyear

end Months

section Order

theorem dayOfYear_bounds (n : Int) :
    0 ≤ n - yearStart (yearOf n) ∧
      n - yearStart (yearOf n) < if isLeap (yearOf n) then 366 else 365 := by
  obtain ⟨hstart, hend⟩ := yearOf_spec n
  rw [yearStart_succ] at hend
  omega

theorem dateOf_bounds (n : Int) :
    (dateOf n).month < 12 ∧ 1 ≤ (dateOf n).day ∧ (dateOf n).day ≤ 31 := by
  obtain ⟨hfirst, hlast⟩ := dayOfYear_bounds n
  obtain ⟨hstart, hend⟩ := monthOf_spec (isLeap (yearOf n)) hfirst
  have hday := hend hlast
  refine ⟨monthOf_lt _ _, ?_, ?_⟩
  · show 1 ≤ n - yearStart (yearOf n) - monthStart _ _ + 1
    omega
  · show n - yearStart (yearOf n) - monthStart _ _ + 1 ≤ 31
    omega

theorem dateOf_lt_iff {n m : Int} (hyear : (dateOf n).year = (dateOf m).year) :
    ((dateOf n).month * 31 + (dateOf n).day : Int) < (dateOf m).month * 31 + (dateOf m).day ↔
      n < m := by
  have hmono : ∀ {n m : Int}, yearOf n = yearOf m → n ≤ m →
      (dateOf n).month < (dateOf m).month ∨
        (dateOf n).month = (dateOf m).month ∧ (dateOf m).day - (dateOf n).day = m - n := by
    intro n m hsame hle
    have hmonth : (dateOf n).month ≤ (dateOf m).month := by
      show monthOf _ _ ≤ monthOf _ _
      rw [hsame]
      exact monthOf_mono _ (by omega)
    rcases Nat.lt_or_eq_of_le hmonth with hless | hequal
    · exact .inl hless
    · refine .inr ⟨hequal, ?_⟩
      have hstart : monthStart (isLeap (yearOf n)) (dateOf n).month =
          monthStart (isLeap (yearOf m)) (dateOf m).month := by rw [hsame, hequal]
      simp only [dateOf] at hstart ⊢
      rw [hsame] at hstart ⊢
      omega
  have hn := dateOf_bounds n
  have hm := dateOf_bounds m
  rcases Int.lt_or_le n m with hless | hle
  · rcases hmono hyear (Int.le_of_lt hless) with hmonth | ⟨hmonth, hday⟩ <;> omega
  · rcases hmono hyear.symm hle with hmonth | ⟨hmonth, hday⟩ <;> omega

end Order

end Newth.Library.Calendar
