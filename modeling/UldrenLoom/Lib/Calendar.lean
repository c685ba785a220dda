import Mathlib

/-!
# The proleptic Gregorian calendar

Days are numbered; day `0` is Monday, the first of January of year `1`.
-/

namespace Calendar

/-! ## Years -/

def IsLeap (y : ℤ) : Prop := y % 4 = 0 ∧ (y % 100 ≠ 0 ∨ y % 400 = 0)

instance (y : ℤ) : Decidable (IsLeap y) := inferInstanceAs (Decidable (_ ∧ _))

def daysInYear (y : ℤ) : ℤ := if IsLeap y then 366 else 365

def jan1 (y : ℤ) : ℤ := 365 * (y - 1) + (y - 1) / 4 - (y - 1) / 100 + (y - 1) / 400

theorem jan1_succ (y : ℤ) : jan1 (y + 1) = jan1 y + daysInYear y := by
  unfold jan1 daysInYear IsLeap
  split_ifs <;> omega

theorem daysInYear_pos (y : ℤ) : 365 ≤ daysInYear y := by
  unfold daysInYear
  split_ifs <;> omega

theorem jan1_strictMono : StrictMono jan1 := by
  refine strictMono_int_of_lt_succ fun y => ?_
  have := daysInYear_pos y
  rw [jan1_succ]
  omega

/-- The year of a day by the mean length of a year; it is off by one at most. -/
def yearEstimate (d : ℤ) : ℤ := d * 400 / 146097 + 1

def yearOf (d : ℤ) : ℤ :=
  if jan1 (yearEstimate d + 1) ≤ d then yearEstimate d + 1
  else if d < jan1 (yearEstimate d) then yearEstimate d - 1 else yearEstimate d

theorem jan1_yearEstimate_le (d : ℤ) : jan1 (yearEstimate d - 1) ≤ d := by
  unfold jan1 yearEstimate
  omega

theorem lt_jan1_yearEstimate (d : ℤ) : d < jan1 (yearEstimate d + 1 + 1) := by
  unfold jan1 yearEstimate
  omega

theorem jan1_yearOf_le (d : ℤ) : jan1 (yearOf d) ≤ d := by
  unfold yearOf
  split_ifs with h1 h2
  · exact h1
  · exact jan1_yearEstimate_le d
  · exact not_lt.mp h2

theorem lt_jan1_yearOf (d : ℤ) : d < jan1 (yearOf d + 1) := by
  unfold yearOf
  split_ifs with h1 h2
  · exact lt_jan1_yearEstimate d
  · rwa [sub_add_cancel]
  · exact not_le.mp h1

/-! ## Months -/

def monthLength (y : ℤ) (m : ℕ) : ℕ :=
  if m = 2 then (if IsLeap y then 29 else 28)
  else if m = 4 ∨ m = 6 ∨ m = 9 ∨ m = 11 then 30 else 31

def daysBefore (y : ℤ) (m : ℕ) : ℕ := ((List.range' 1 (m - 1)).map (monthLength y)).sum

def firstOfMonth (y : ℤ) (m : ℕ) : ℤ := jan1 y + daysBefore y m

/-- The month of a day: how many months of its year have begun. -/
def monthOf (d : ℤ) : ℕ :=
  (List.range' 1 12).countP fun m => decide (firstOfMonth (yearOf d) m ≤ d)

def dayOf (d : ℤ) : ℕ := (d - firstOfMonth (yearOf d) (monthOf d)).toNat + 1

theorem firstOfMonth_succ (y : ℤ) {m : ℕ} (hm : 1 ≤ m) :
    firstOfMonth y (m + 1) = firstOfMonth y m + monthLength y m := by
  obtain ⟨k, rfl⟩ := Nat.exists_eq_add_of_le' hm
  rw [firstOfMonth, firstOfMonth, daysBefore, daysBefore, Nat.add_sub_cancel, Nat.add_sub_cancel,
    List.range'_concat, List.map_append, List.sum_append, List.map_singleton, List.sum_singleton,
    Nat.one_mul, Nat.add_comm 1 k]
  push_cast
  ring

theorem firstOfMonth_one (y : ℤ) : firstOfMonth y 1 = jan1 y := by simp [firstOfMonth, daysBefore]

theorem firstOfMonth_thirteen (y : ℤ) : firstOfMonth y 13 = jan1 (y + 1) := by
  rw [jan1_succ, firstOfMonth, daysInYear]
  by_cases h : IsLeap y <;> simp [daysBefore, List.range', monthLength, h]

theorem firstOfMonth_le (y : ℤ) {m m' : ℕ} (hm : 1 ≤ m) (h : m ≤ m') :
    firstOfMonth y m ≤ firstOfMonth y m' := by
  induction m', h using Nat.le_induction with
  | base => exact le_rfl
  | succ k hk ih =>
    rw [firstOfMonth_succ y (hm.trans hk)]
    omega

theorem firstOfMonth_bounds (y : ℤ) {m : ℕ} (hm : 1 ≤ m) (hm' : m ≤ 12) :
    jan1 y ≤ firstOfMonth y m ∧ firstOfMonth y m + monthLength y m ≤ jan1 (y + 1) := by
  rw [← firstOfMonth_succ y hm, ← firstOfMonth_one, ← firstOfMonth_thirteen]
  exact ⟨firstOfMonth_le y le_rfl hm, firstOfMonth_le y (by omega) (by omega)⟩

/-- The first day of the `i`-th month counted from year `0` on. -/
def monthStart (i : ℤ) : ℤ := firstOfMonth (i / 12) (i % 12 + 1).toNat

theorem monthStart_succ (i : ℤ) :
    monthStart (i + 1) = monthStart i + monthLength (i / 12) (i % 12 + 1).toNat := by
  have hm : 1 ≤ (i % 12 + 1).toNat := by omega
  rw [monthStart, monthStart, ← firstOfMonth_succ _ hm]
  by_cases h : i % 12 = 11
  · have hy : (i + 1) / 12 = i / 12 + 1 := by omega
    have hm' : ((i + 1) % 12 + 1).toNat = 1 := by omega
    rw [hy, hm', h, firstOfMonth_one]
    exact (firstOfMonth_thirteen _).symm
  · have hy : (i + 1) / 12 = i / 12 := by omega
    have hm' : ((i + 1) % 12 + 1).toNat = (i % 12 + 1).toNat + 1 := by omega
    rw [hy, hm']

theorem monthStart_add (y : ℤ) (z : ℕ) :
    monthStart (12 * y + z) = firstOfMonth (y + (z / 12 : ℕ)) (z % 12 + 1) ∧
      monthStart (12 * y + (z + 1 : ℕ)) = firstOfMonth (y + (z / 12 : ℕ)) (z % 12 + 1) +
        monthLength (y + (z / 12 : ℕ)) (z % 12 + 1) := by
  have hy : (12 * y + (z : ℤ)) / 12 = y + (z / 12 : ℕ) := by omega
  have hm : ((12 * y + (z : ℤ)) % 12 + 1).toNat = z % 12 + 1 := by omega
  rw [Nat.cast_succ, ← add_assoc, monthStart_succ, monthStart, hy, hm]
  exact ⟨rfl, rfl⟩

theorem monthLength_pos (y : ℤ) (m : ℕ) : 28 ≤ monthLength y m := by
  unfold monthLength
  split_ifs <;> omega

theorem monthStart_strictMono : StrictMono monthStart := by
  refine strictMono_int_of_lt_succ fun i => ?_
  have := monthLength_pos (i / 12) (i % 12 + 1).toNat
  rw [monthStart_succ]
  omega

/-! ## Weeks -/

/-- The Monday of the first week of ISO 8601, the one with the fourth of January. -/
def isoWeek1 (y : ℤ) : ℤ := jan1 y + 3 - (jan1 y + 3) % 7

/-- The week of the 28th of December, which is the last one. -/
def weeksInYear (y : ℤ) : ℤ := (jan1 (y + 1) - 4 - isoWeek1 y) / 7 + 1

theorem isoWeek1_succ (y : ℤ) : isoWeek1 (y + 1) = isoWeek1 y + 7 * weeksInYear y := by
  unfold weeksInYear isoWeek1
  omega

theorem weeksInYear_pos (y : ℤ) : 52 ≤ weeksInYear y := by
  have hy := jan1_succ y
  have := daysInYear_pos y
  unfold weeksInYear isoWeek1
  omega

theorem isoWeek1_strictMono : StrictMono isoWeek1 := by
  refine strictMono_int_of_lt_succ fun y => ?_
  have := weeksInYear_pos y
  rw [isoWeek1_succ]
  omega

theorem jan1_lt_isoWeek1_succ (y : ℤ) : jan1 y < isoWeek1 (y + 1) := by
  have hy := jan1_succ y
  have := daysInYear_pos y
  unfold isoWeek1
  omega

end Calendar
