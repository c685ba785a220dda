import UldrenLoom.Rrule.Model

/-!
# When an expansion returns

* **`returns_expand`**: an expansion returns exactly when every period it reaches is in range.
-/

namespace UldrenLoom.Rrule

open Fallible Calendar Nat Date

def Returns {ε α : Type} (x : Except ε α) : Prop := ∃ a, x = .ok a

section Returns

variable {ε α β : Type}

theorem returns_ok (a : α) : Returns (.ok a : Except ε α) := ⟨a, rfl⟩

theorem not_returns_error (e : ε) : ¬ Returns (.error e : Except ε α) := fun ⟨_, h⟩ => nomatch h

variable {x : Except ε α}

theorem returns_bind {f : α → Except ε β} : Returns (x >>= f) ↔ ∃ a, x = .ok a ∧ Returns (f a) := by
  unfold Returns
  simp only [bind_eq_ok]
  exact ⟨fun ⟨b, a, hx, hf⟩ => ⟨a, hx, b, hf⟩, fun ⟨a, hx, b, hf⟩ => ⟨b, a, hx, hf⟩⟩

theorem returns_bind_pure {f : α → β} : Returns (x >>= fun a => pure (f a)) ↔ Returns x := by
  rw [returns_bind]
  exact ⟨fun ⟨a, h, _⟩ => ⟨a, h⟩, fun ⟨a, h⟩ => ⟨a, h, _, rfl⟩⟩

theorem returns_map {f : α → β} : Returns (f <$> x) ↔ Returns x := by
  cases x with
  | error e => exact ⟨fun ⟨_, h⟩ => (nomatch h), fun ⟨_, h⟩ => (nomatch h)⟩
  | ok a => exact ⟨fun _ => ⟨a, rfl⟩, fun _ => ⟨f a, rfl⟩⟩

theorem returns_mapM {f : α → Except ε β} {xs : List α} :
    Returns (xs.mapM f) ↔ ∀ x ∈ xs, Returns (f x) := by
  induction xs with
  | nil => exact ⟨fun _ _ h => by simp at h, fun _ => ⟨[], rfl⟩⟩
  | cons x xs ih =>
    rw [List.mapM_cons, returns_bind, List.forall_mem_cons, ← ih]
    constructor
    · rintro ⟨a, hx, hxs⟩
      exact ⟨⟨a, hx⟩, returns_bind_pure.mp hxs⟩
    · rintro ⟨⟨a, hx⟩, hxs⟩
      exact ⟨a, hx, returns_bind_pure.mpr hxs⟩

theorem returns_concatMap {f : α → Except ε (List β)} {xs : List α} :
    Returns (concatMap f xs) ↔ ∀ x ∈ xs, Returns (f x) := by
  induction xs with
  | nil => exact ⟨fun _ _ h => by simp at h, fun _ => ⟨[], rfl⟩⟩
  | cons x xs ih =>
    rw [concatMap_cons, returns_bind, List.forall_mem_cons, ← ih]
    constructor
    · rintro ⟨a, hx, hxs⟩
      exact ⟨⟨a, hx⟩, returns_bind_pure.mp hxs⟩
    · rintro ⟨⟨a, hx⟩, hxs⟩
      exact ⟨a, hx, returns_bind_pure.mpr hxs⟩

theorem returns_orFault {f : Fault} {x : Option α} : Returns (orFault f x) ↔ x.isSome := by
  unfold Returns
  simp only [orFault_eq_ok, Option.isSome_iff_exists]

end Returns

/-! ## Dates -/

theorem Date.isSome_ofDay? {d : ℤ} : (Date.ofDay? d).isSome ↔ minDay ≤ d ∧ d < endDay := by
  unfold Date.ofDay?
  split_ifs with h
  · exact ⟨fun _ => h, fun _ => rfl⟩
  · simp [h]

theorem Date.returns_addDays {d : Date} {k : ℤ} :
    Returns (d.addDays k) ↔ minDay ≤ d.day + k ∧ d.day + k < endDay := by
  rw [Date.addDays, returns_orFault, isSome_ofDay?]

theorem Date.year_bounds (d : Date) : minYear ≤ d.year ∧ d.year ≤ maxYear := by
  constructor
  · have h := jan1_strictMono.lt_iff_lt.mp (d.minDay_le.trans_lt (lt_jan1_yearOf d.day))
    exact Int.lt_add_one_iff.mp h
  · have h := jan1_strictMono.lt_iff_lt.mp ((jan1_yearOf_le d.day).trans_lt d.lt_endDay)
    exact Int.lt_add_one_iff.mp h

theorem PrimitiveDateTime.minDay_le_nanos (x : PrimitiveDateTime) : minDay * dayNanos ≤ x.nanos := by
  have h := x.date.minDay_le
  simp only [nanos, dayNanos]
  omega

theorem PrimitiveDateTime.returns_addSeconds {x : PrimitiveDateTime} {k : ℕ} :
    Returns (x.addSeconds k) ↔ x.nanos + k * 10 ^ 9 < endDay * dayNanos := by
  have h := x.minDay_le_nanos
  rw [addSeconds, ofNanos, returns_bind_pure, returns_orFault, isSome_ofDay?]
  simp only [dayNanos, minDay_eq, endDay_eq] at *
  omega

theorem Date.isSome_fromCalendarDate {y : ℤ} {m d : ℕ} (hm : 1 ≤ m) (hm' : m ≤ 12) (hd : 1 ≤ d)
    (hd' : d ≤ 28) : (Date.fromCalendarDate y m d).isSome ↔ minYear ≤ y ∧ y ≤ maxYear := by
  have hlen := monthLength_pos y m
  obtain ⟨hlo, hhi⟩ := firstOfMonth_bounds y hm hm'
  rw [Date.fromCalendarDate, if_pos ⟨hd, hd'.trans hlen⟩, isSome_ofDay?]
  constructor
  · rintro ⟨h1, h2⟩
    have hmin : jan1 minYear < jan1 (y + 1) := by rw [← minDay]; omega
    have hmax : jan1 y < jan1 (maxYear + 1) := by rw [← endDay]; omega
    exact ⟨Int.lt_add_one_iff.mp (jan1_strictMono.lt_iff_lt.mp hmin),
      Int.lt_add_one_iff.mp (jan1_strictMono.lt_iff_lt.mp hmax)⟩
  · rintro ⟨h1, h2⟩
    have hmin : minDay ≤ jan1 y := jan1_strictMono.le_iff_le.mpr h1
    have hmax : jan1 (y + 1) ≤ endDay := jan1_strictMono.le_iff_le.mpr (by omega)
    omega

/-! ## The arithmetic of a period -/

namespace RRule

variable (r : RRule) (dtstart : PrimitiveDateTime)

/-- No ordinal is the least `i8`, whose negation overflows. -/
def NoLeastOrdinal : Prop := ∀ b ∈ r.byDay, ∀ o ∈ b.ordinal, o.1 ≠ -128

/-- The day the weeks of a weekly rule are counted from. -/
def week0 (start : Date) : ℤ := start.day - dayOffset r.wkst start.weekday

/-- The weeks of a `BYWEEKNO` rule are in range. -/
def WeeksSafe (y : ℤ) : Prop :=
  (minYear ≤ y ∧ y ≤ maxYear) ∧ ∀ wn ∈ r.byWeekNo, ∀ wd ∈ r.isoWeekdays,
    let week := if 0 < wn.1 then wn.1 else weeksInYear y + wn.1 + 1
    1 ≤ week → week ≤ weeksInYear y →
      minDay ≤ isoWeek1 y + 7 * (week - 1) + wd.numberDaysFromMonday ∧
        isoWeek1 y + 7 * (week - 1) + wd.numberDaysFromMonday < endDay

/-- The arithmetic of period `n` stays in range. -/
def PeriodSafe (n : ℕ) : Prop :=
  let start := dtstart.date
  let step := n * r.interval
  match r.freq with
  | .daily => start.day + step < endDay
  | .weekly => minDay ≤ r.week0 start ∧ r.week0 start + 7 * step < endDay ∧
      ∀ wd ∈ r.weekdays start, r.week0 start + 7 * step + dayOffset r.wkst wd < endDay
  | .monthly => start.month - 1 + step < 2 ^ 32 ∧
      (r.monthOk ((start.month - 1 + step) % 12 + 1) → r.byMonthDay = [] → r.NoLeastOrdinal)
  | .yearly => step < 2 ^ 32 ∧ (-2 ^ 31 ≤ start.year + asI32 step ∧ start.year + asI32 step < 2 ^ 31) ∧
      (r.byYearDay = [] → if r.byWeekNo ≠ [] then r.WeeksSafe (start.year + asI32 step)
        else r.byMonth = [] ∨ r.byMonthDay = [] → r.NoLeastOrdinal)
  | _ => dtstart.nanos + (step * r.unit : ℕ) * 10 ^ 9 < endDay * dayNanos

variable {r dtstart}

theorem returns_nth {α : Type} {list : List α} {o : ℤ} : Returns (nth list o) ↔ o ≠ -128 := by
  rcases lt_trichotomy o 0 with h | rfl | h
  · rw [nth, if_neg (by omega), if_pos h]
    split_ifs with hl <;> simp [hl, Returns]
  · exact ⟨fun _ => by decide, fun _ => ⟨none, rfl⟩⟩
  · rw [nth, if_pos h]
    exact ⟨fun _ => by omega, fun _ => returns_ok _⟩

theorem returns_dates {all : Weekday → List Date} {b : ByDay} :
    Returns (b.dates all) ↔ ∀ o ∈ b.ordinal, o.1 ≠ -128 := by
  unfold ByDay.dates
  cases b.ordinal with
  | none => exact ⟨fun _ o h => (nomatch h), fun _ => returns_ok _⟩
  | some o =>
    rw [returns_map, returns_nth]
    exact ⟨fun h o' ho' => by cases ho'; exact h, fun h => h o rfl⟩

variable {y : ℤ}

theorem returns_monthDates {m startDay : ℕ} :
    Returns (r.monthDates y m startDay) ↔ (r.byMonthDay = [] → r.NoLeastOrdinal) := by
  unfold monthDates
  split_ifs with h1 h2
  · exact ⟨fun _ h => absurd h h1, fun _ => returns_ok _⟩
  · rw [returns_concatMap]
    simp only [returns_dates]
    exact ⟨fun h _ => h, fun h => h (not_not.mp h1)⟩
  · refine ⟨fun _ _ b hb => ?_, fun _ => returns_ok _⟩
    rw [not_not.mp h2] at hb
    cases hb

variable {start : Date} {n : ℕ}

theorem returns_weekStart : Returns (r.weekStart start n) ↔
      minDay ≤ r.week0 start ∧ r.week0 start + 7 * (n * r.interval : ℕ) < endDay := by
  rw [weekStart, returns_bind]
  simp only [startOfWeek, addDays_eq_ok, returns_addDays]
  constructor
  · rintro ⟨d, hd, h⟩
    have := d.minDay_le
    unfold week0
    omega
  · rintro ⟨hmin, h⟩
    exact ⟨⟨_, hmin, by omega⟩, (by omega : start.day - _ = _), by dsimp only; omega⟩

theorem day_of_weekStart {d : Date} (h : r.weekStart start n = .ok d) :
    d.day = r.week0 start + 7 * (n * r.interval : ℕ) := by
  obtain ⟨e, he, h⟩ := of_bind h
  rw [startOfWeek, addDays_eq_ok] at he
  rw [addDays_eq_ok.mp h, he, week0]
  rfl

theorem returns_weeklyDates : Returns (r.weeklyDates start n) ↔
    minDay ≤ r.week0 start ∧ r.week0 start + 7 * (n * r.interval : ℕ) < endDay ∧
      ∀ wd ∈ r.weekdays start,
        r.week0 start + 7 * (n * r.interval : ℕ) + dayOffset r.wkst wd < endDay := by
  rw [weeklyDates, returns_bind, ← and_assoc, ← returns_weekStart]
  simp only [returns_bind_pure, returns_mapM, returns_addDays]
  constructor
  · rintro ⟨week, hw, h⟩
    rw [day_of_weekStart hw] at h
    exact ⟨⟨week, hw⟩, fun wd hwd => (h wd hwd).2⟩
  · rintro ⟨⟨week, hw⟩, h⟩
    refine ⟨week, hw, fun wd hwd => ⟨?_, ?_⟩⟩
    · have := week.minDay_le
      omega
    · rw [day_of_weekStart hw]
      exact h wd hwd

theorem mulU32_eq_ok {a b c : ℕ} : mulU32 a b = .ok c ↔ a * b < 2 ^ 32 ∧ c = a * b := by
  rw [mulU32, ite_ok_eq_ok]

theorem addMonths_eq_ok {m add : ℕ} {p : ℤ × ℕ} : addMonths y m add = .ok p ↔
    m - 1 + add < 2 ^ 32 ∧ p = (y + ((m - 1 + add) / 12 : ℕ), (m - 1 + add) % 12 + 1) := by
  rw [addMonths, ite_ok_eq_ok]

theorem periodMonth_eq_ok {p : ℤ × ℕ} : r.periodMonth start n = .ok p ↔
    start.month - 1 + n * r.interval < 2 ^ 32 ∧
      p = (start.year + ((start.month - 1 + n * r.interval) / 12 : ℕ),
        (start.month - 1 + n * r.interval) % 12 + 1) := by
  rw [periodMonth, bind_eq_ok]
  simp only [mulU32_eq_ok, addMonths_eq_ok]
  constructor
  · rintro ⟨_, ⟨_, rfl⟩, h⟩
    exact h
  · intro h
    exact ⟨_, ⟨by omega, rfl⟩, h⟩

theorem returns_monthlyDates : Returns (r.monthlyDates start n) ↔
    start.month - 1 + n * r.interval < 2 ^ 32 ∧
      (r.monthOk ((start.month - 1 + n * r.interval) % 12 + 1) → r.byMonthDay = [] →
        r.NoLeastOrdinal) := by
  rw [monthlyDates, returns_bind]
  constructor
  · rintro ⟨p, hp, h⟩
    obtain ⟨hlt, rfl⟩ := periodMonth_eq_ok.mp hp
    refine ⟨hlt, fun hm => ?_⟩
    dsimp only at h
    rw [if_pos hm] at h
    exact returns_monthDates.mp h
  · rintro ⟨hlt, h⟩
    refine ⟨_, periodMonth_eq_ok.mpr ⟨hlt, rfl⟩, ?_⟩
    dsimp only
    split_ifs with hm
    · exact returns_monthDates.mpr (h hm)
    · exact returns_ok _

theorem periodYear_eq_ok : r.periodYear start n = .ok y ↔
    n * r.interval < 2 ^ 32 ∧ y = start.year + asI32 (n * r.interval) ∧ -2 ^ 31 ≤ y ∧ y < 2 ^ 31 := by
  rw [periodYear, bind_eq_ok]
  simp only [mulU32_eq_ok]
  constructor
  · rintro ⟨_, ⟨hlt, rfl⟩, h⟩
    split_ifs at h with hy
    cases h
    exact ⟨hlt, rfl, hy⟩
  · rintro ⟨hlt, rfl, hy⟩
    refine ⟨_, ⟨hlt, rfl⟩, ?_⟩
    rw [if_pos hy]

theorem isoWeeksInYear_eq_ok {w : ℤ} :
    isoWeeksInYear y = .ok w ↔ (minYear ≤ y ∧ y ≤ maxYear) ∧ w = weeksInYear y := by
  rw [isoWeeksInYear, bind_eq_ok, ← isSome_fromCalendarDate (m := 12) (d := 28) (by decide)
    le_rfl (by decide) le_rfl, Option.isSome_iff_exists]
  simp only [orFault_eq_ok]
  constructor
  · rintro ⟨d, hd, h⟩
    cases h
    exact ⟨⟨d, hd⟩, rfl⟩
  · rintro ⟨⟨d, hd⟩, rfl⟩
    exact ⟨d, hd, rfl⟩

theorem returns_fromIsoWeekDate {week : ℤ} {wd : Weekday} (hy : minYear ≤ y ∧ y ≤ maxYear) :
    Returns (Date.fromIsoWeekDate y week wd) ↔ (1 ≤ week → week ≤ weeksInYear y →
      minDay ≤ isoWeek1 y + 7 * (week - 1) + wd.numberDaysFromMonday ∧
        isoWeek1 y + 7 * (week - 1) + wd.numberDaysFromMonday < endDay) := by
  unfold Date.fromIsoWeekDate
  split_ifs with h
  · rw [returns_map, returns_orFault, isSome_ofDay?]
    exact ⟨fun hr _ _ => hr, fun hr => hr h.2.2.1 h.2.2.2⟩
  · exact ⟨fun _ h1 h2 => absurd ⟨hy.1, hy.2, h1, h2⟩ h, fun _ => returns_ok _⟩

theorem returns_weekNoDates : Returns (r.weekNoDates y) ↔ r.WeeksSafe y := by
  rw [weekNoDates, returns_bind]
  simp only [isoWeeksInYear_eq_ok, returns_concatMap, returns_map]
  constructor
  · rintro ⟨_, ⟨hy, rfl⟩, h⟩
    exact ⟨hy, fun wn hwn wd hwd => (returns_fromIsoWeekDate hy).mp (h wn hwn wd hwd)⟩
  · rintro ⟨hy, h⟩
    exact ⟨_, ⟨hy, rfl⟩, fun wn hwn wd hwd => (returns_fromIsoWeekDate hy).mpr (h wn hwn wd hwd)⟩

theorem yearMonths_ne_nil (start : Date) : r.yearMonths start ≠ [] := by
  unfold yearMonths
  split_ifs with h1 h2
  · exact fun h => h1 (List.map_eq_nil_iff.mp h)
  · decide
  · simp

theorem returns_monthDrivenDates : Returns (r.monthDrivenDates start y) ↔
    (r.byMonth = [] ∨ r.byMonthDay = [] → r.NoLeastOrdinal) := by
  unfold monthDrivenDates
  split_ifs with h
  · rw [returns_concatMap]
    simp only [returns_dates]
    exact ⟨fun hr _ => hr, fun hr => hr (.inl h.1)⟩
  · rw [returns_concatMap]
    simp only [returns_monthDates]
    constructor
    · intro hr hmonth
      by_cases hday : r.byMonthDay = []
      · obtain ⟨m, hm⟩ := List.exists_mem_of_ne_nil _ (yearMonths_ne_nil start)
        exact hr m hm hday
      · -- without `BYMONTH` this branch has no ordinal at all
        have hnone : ¬ r.byDay.any (fun b => b.ordinal.isSome) = true :=
          fun hany => h ⟨hmonth.resolve_right hday, hany⟩
        intro b hb o ho
        refine absurd (List.any_eq_true.mpr ⟨b, hb, ?_⟩) hnone
        rw [ho]
        rfl
    · exact fun hr m _ hday => hr (.inr hday)

theorem returns_yearlyDates : Returns (r.yearlyDates start n) ↔
    n * r.interval < 2 ^ 32 ∧ (-2 ^ 31 ≤ start.year + asI32 (n * r.interval) ∧
      start.year + asI32 (n * r.interval) < 2 ^ 31) ∧
      (r.byYearDay = [] → if r.byWeekNo ≠ [] then r.WeeksSafe (start.year + asI32 (n * r.interval))
        else r.byMonth = [] ∨ r.byMonthDay = [] → r.NoLeastOrdinal) := by
  have hdates : ∀ y, Returns (r.yearDates start y) ↔
      (r.byYearDay = [] → if r.byWeekNo ≠ [] then r.WeeksSafe y
        else r.byMonth = [] ∨ r.byMonthDay = [] → r.NoLeastOrdinal) := by
    intro y
    by_cases h1 : r.byYearDay = []
    · rw [yearDates, if_neg (not_not.mpr h1)]
      by_cases h2 : r.byWeekNo = []
      · rw [if_neg (not_not.mpr h2), if_neg (not_not.mpr h2), returns_monthDrivenDates]
        exact ⟨fun h _ => h, fun h => h h1⟩
      · rw [if_pos h2, if_pos h2, returns_weekNoDates]
        exact ⟨fun h _ => h, fun h => h h1⟩
    · rw [yearDates, if_pos h1]
      exact ⟨fun _ h => absurd h h1, fun _ => returns_ok _⟩
  rw [yearlyDates, returns_bind]
  simp only [returns_bind_pure, hdates, periodYear_eq_ok]
  constructor
  · rintro ⟨_, ⟨hlt, rfl, hy⟩, h⟩
    exact ⟨hlt, hy, h⟩
  · rintro ⟨hlt, hy, h⟩
    exact ⟨_, ⟨hlt, rfl, hy⟩, h⟩

theorem returns_subdailyBase : Returns (r.subdailyBase dtstart n) ↔
    dtstart.nanos + (n * r.interval * r.unit : ℕ) * 10 ^ 9 < endDay * dayNanos := by
  rw [subdailyBase, ← PrimitiveDateTime.returns_addSeconds]
  rfl

theorem returns_subdailySet :
    Returns (r.subdailySet dtstart n) ↔ Returns (r.subdailyBase dtstart n) := by
  rw [subdailySet, returns_bind]
  constructor
  · rintro ⟨base, hb, -⟩
    exact ⟨base, hb⟩
  · rintro ⟨base, hb⟩
    refine ⟨base, hb, ?_⟩
    split_ifs <;> exact returns_ok _

theorem returns_dailyDates :
    Returns (r.dailyDates start n) ↔ start.day + (n * r.interval : ℕ) < endDay := by
  have := start.minDay_le
  rw [dailyDates, returns_bind_pure, returns_addDays]
  omega

/-- **The candidates of a period can be computed exactly when its arithmetic is in range.** -/
theorem returns_periodSet : Returns (r.periodSet dtstart n) ↔ r.PeriodSafe dtstart n := by
  have hsub : r.subdaily = true → (Returns (r.periodSet dtstart n) ↔
      dtstart.nanos + (n * r.interval * r.unit : ℕ) * 10 ^ 9 < endDay * dayNanos) := by
    intro h
    rw [periodSet, if_pos h, returns_subdailySet, returns_subdailyBase]
  have hdate : r.subdaily = false →
      (Returns (r.periodSet dtstart n) ↔ Returns (r.periodDates dtstart.date n)) := by
    intro h
    rw [periodSet, if_neg (by simp [h]), returns_bind_pure]
  unfold PeriodSafe
  unfold subdaily at hsub hdate
  unfold periodDates at hdate
  cases hf : r.freq <;> simp only [hf] at hsub hdate ⊢
  case daily => rw [hdate rfl, returns_dailyDates]
  case weekly => rw [hdate rfl, returns_weeklyDates]
  case monthly => rw [hdate rfl, returns_monthlyDates]
  case yearly => rw [hdate rfl, returns_yearlyDates]
  all_goals exact hsub rfl

/-- The start of period `n` is in range, once its candidates are. -/
def StartSafe (r : RRule) (dtstart : PrimitiveDateTime) (n : ℕ) : Prop :=
  r.freq = .monthly →
    dtstart.date.year + ((dtstart.date.month - 1 + n * r.interval) / 12 : ℕ) ≤ maxYear

theorem returns_periodStartAfter {hi : PrimitiveDateTime} (h : Returns (r.periodSet dtstart n)) :
    Returns (r.periodStartAfter dtstart n hi) ↔ r.StartSafe dtstart n := by
  rw [returns_periodSet] at h
  unfold PeriodSafe at h
  unfold periodStartAfter StartSafe
  cases hf : r.freq <;> simp only [hf] at h ⊢
  case daily =>
    rw [returns_bind_pure, returns_addDays]
    have := dtstart.date.minDay_le
    exact ⟨fun _ h => (nomatch h), fun _ => ⟨by omega, h⟩⟩
  case weekly =>
    rw [returns_bind_pure, returns_weekStart]
    exact ⟨fun _ h => (nomatch h), fun _ => ⟨h.1, h.2.1⟩⟩
  case monthly =>
    rw [returns_bind]
    simp only [periodMonth_eq_ok, returns_bind_pure, firstOfMonthDate, returns_orFault]
    have hy := dtstart.date.year_bounds.1
    constructor
    · rintro ⟨_, ⟨-, rfl⟩, hd⟩ -
      exact ((isSome_fromCalendarDate (by omega) (by omega) le_rfl (by decide)).mp hd).2
    · intro hmax
      refine ⟨_, ⟨h.1, rfl⟩, ?_⟩
      refine (isSome_fromCalendarDate (by omega) (by omega) le_rfl (by decide)).mpr ?_
      exact ⟨by omega, hmax trivial⟩
  case yearly =>
    rw [returns_bind_pure]
    exact ⟨fun _ h => (nomatch h), fun _ => ⟨_, periodYear_eq_ok.mpr ⟨h.1, rfl, h.2.1⟩⟩⟩
  all_goals
    rw [returns_bind_pure, returns_subdailyBase]
    exact ⟨fun _ h => (nomatch h), fun _ => h⟩

/-! ## The elements of a period -/

section Scan

variable (r) (hi : PrimitiveDateTime) (emitted : ℕ) (set : List PrimitiveDateTime)

/-- The loop ends at an element of the period. -/
def Halts : Prop :=
  ∃ i dt, set[i]? = some dt ∧ (r.exhausted (emitted + i) dt = true ∨ hi ≤ dt)

/-- The `i`-th element of the period is counted. -/
def Counted (i : ℕ) : Prop :=
  (∃ dt, set[i]? = some dt ∧ ¬ r.exhausted (emitted + i) dt = true) ∧
    ∀ j < i, ∀ dt, set[j]? = some dt → ¬ r.exhausted (emitted + j) dt = true ∧ dt < hi

/-- The counter of elements stays a `u32`. -/
def Fits : Prop := ∀ i, r.Counted hi emitted set i → emitted + i + 1 < 2 ^ 32

variable {r hi emitted set} {dt lo : PrimitiveDateTime}

theorem halts_cons : r.Halts hi emitted (dt :: set) ↔
    r.exhausted emitted dt = true ∨ hi ≤ dt ∨ r.Halts hi (emitted + 1) set := by
  constructor
  · rintro ⟨i, x, hx, h⟩
    cases i with
    | zero =>
      cases hx
      exact h.imp_right .inl
    | succ i =>
      rw [add_comm i 1, ← add_assoc] at h
      exact .inr (.inr ⟨i, x, hx, h⟩)
  · rintro (h | h | ⟨i, x, hx, h⟩)
    · exact ⟨0, dt, rfl, .inl h⟩
    · exact ⟨0, dt, rfl, .inr h⟩
    · refine ⟨i + 1, x, hx, ?_⟩
      rwa [add_comm i 1, ← add_assoc]

theorem counted_zero : r.Counted hi emitted (dt :: set) 0 ↔ ¬ r.exhausted emitted dt = true := by
  constructor
  · rintro ⟨⟨x, hx, h⟩, -⟩
    cases hx
    exact h
  · exact fun h => ⟨⟨dt, rfl, h⟩, fun j hj => absurd hj (not_lt_zero j)⟩

theorem counted_succ {i : ℕ} : r.Counted hi emitted (dt :: set) (i + 1) ↔
    (¬ r.exhausted emitted dt = true ∧ dt < hi) ∧ r.Counted hi (emitted + 1) set i := by
  have hadd : ∀ j, emitted + (j + 1) = emitted + 1 + j := by omega
  constructor
  · rintro ⟨⟨x, hx, h⟩, hj⟩
    refine ⟨hj 0 (succ_pos i) dt rfl, ⟨x, hx, hadd i ▸ h⟩, fun j hlt y hy => ?_⟩
    exact hadd j ▸ hj (j + 1) (succ_lt_succ hlt) y hy
  · rintro ⟨hdt, ⟨x, hx, h⟩, hj⟩
    refine ⟨⟨x, hx, (hadd i).symm ▸ h⟩, fun j hlt y hy => ?_⟩
    cases j with
    | zero =>
      cases hy
      exact hdt
    | succ j => exact (hadd j).symm ▸ hj j (lt_of_succ_lt_succ hlt) y hy

theorem fits_nil : r.Fits hi emitted [] := fun _ ⟨⟨_, h, _⟩, _⟩ => nomatch h

theorem fits_cons : r.Fits hi emitted (dt :: set) ↔
    (¬ r.exhausted emitted dt = true → emitted + 1 < 2 ^ 32 ∧
      (dt < hi → r.Fits hi (emitted + 1) set)) := by
  constructor
  · intro h hex
    refine ⟨h 0 (counted_zero.mpr hex), fun hlt i hi' => ?_⟩
    have := h (i + 1) (counted_succ.mpr ⟨⟨hex, hlt⟩, hi'⟩)
    omega
  · intro h i hc
    cases i with
    | zero => exact (h (counted_zero.mp hc)).1
    | succ i =>
      obtain ⟨hdt, hc⟩ := counted_succ.mp hc
      have := (h hdt.1).2 hdt.2 i hc
      omega

variable {out : List PrimitiveDateTime}

theorem returns_scan : Returns (r.scan lo hi set emitted out) ↔ r.Fits hi emitted set := by
  induction set generalizing emitted out with
  | nil => exact ⟨fun _ => fits_nil, fun _ => returns_ok _⟩
  | cons dt set ih =>
    rw [scan, fits_cons]
    split_ifs with h1 h2 h3
    · exact ⟨fun _ h => absurd h1 h, fun _ => returns_ok _⟩
    · exact ⟨fun h => absurd h (not_returns_error _), fun h => absurd (h h1).1 (not_lt.mpr h2)⟩
    · exact ⟨fun _ _ => ⟨not_le.mp h2, fun hlt => absurd h3 (not_le.mpr hlt)⟩, fun _ => returns_ok _⟩
    · rw [ih]
      exact ⟨fun h _ => ⟨not_le.mp h2, fun _ => h⟩, fun h => (h h1).2 (not_le.mp h3)⟩

theorem keep_append (lo dt : PrimitiveDateTime) (out set : List PrimitiveDateTime) :
    keep lo dt out ++ set.filter (fun x => lo ≤ x) = out ++ (dt :: set).filter fun x => lo ≤ x := by
  unfold keep
  split_ifs with h <;> simp [h]

theorem scan_eq_next {out' : List PrimitiveDateTime} {emitted' : ℕ}
    (h : r.scan lo hi set emitted out = .ok (.next emitted' out')) :
    ¬ r.Halts hi emitted set ∧ emitted' = emitted + set.length ∧
      out' = out ++ set.filter (fun dt => lo ≤ dt) := by
  induction set generalizing emitted out with
  | nil =>
    cases h
    exact ⟨fun ⟨_, _, h, _⟩ => (nomatch h), rfl, by simp⟩
  | cons dt set ih =>
    rw [scan] at h
    split_ifs at h with h1 h2 h3
    · cases h
    · cases h
    obtain ⟨hh, he, ho⟩ := ih h
    rw [halts_cons, List.length_cons]
    refine ⟨fun hor => hor.elim h1 fun hor => hor.elim h3 hh, by omega, ?_⟩
    rw [ho, keep_append]

theorem scan_eq_stop {out' : List PrimitiveDateTime}
    (h : r.scan lo hi set emitted out = .ok (.stop out')) : r.Halts hi emitted set := by
  induction set generalizing emitted out with
  | nil => cases h
  | cons dt set ih =>
    rw [scan] at h
    rw [halts_cons]
    split_ifs at h with h1 h2 h3
    · exact .inl h1
    · exact .inr (.inl h3)
    · exact .inr (.inr (ih h))

end Scan

/-! ## The periods -/

section Periods

variable (r dtstart)

def occurrences (n : ℕ) : List PrimitiveDateTime :=
  match r.periodSet dtstart n with
  | .ok set => r.selected dtstart set
  | .error _ => []

/-- The elements of the periods before the `n`-th. -/
def emitted : ℕ → ℕ
  | 0 => 0
  | n + 1 => emitted n + (r.occurrences dtstart n).length

/-- The loop gets to period `n`: no period before it ends the loop or begins after the window. -/
def Reached (hi : PrimitiveDateTime) (n : ℕ) : Prop :=
  ∀ k < n, ¬ r.Halts hi (r.emitted dtstart k) (r.occurrences dtstart k) ∧
    r.periodStartAfter dtstart k hi ≠ .ok true

/-- Period `n` can be evaluated. -/
def StepSafe (hi : PrimitiveDateTime) (n : ℕ) : Prop :=
  r.PeriodSafe dtstart n ∧ r.Fits hi (r.emitted dtstart n) (r.occurrences dtstart n) ∧
    (¬ r.Halts hi (r.emitted dtstart n) (r.occurrences dtstart n) → r.StartSafe dtstart n)

variable {r dtstart}

theorem occurrences_of_ok {set : List PrimitiveDateTime} (h : r.periodSet dtstart n = .ok set) :
    r.occurrences dtstart n = r.selected dtstart set := by rw [occurrences, h]

variable {hi lo : PrimitiveDateTime}

theorem reached_succ (h : r.Reached dtstart hi n)
    (hh : ¬ r.Halts hi (r.emitted dtstart n) (r.occurrences dtstart n))
    (ha : r.periodStartAfter dtstart n hi ≠ .ok true) : r.Reached dtstart hi (n + 1) := by
  intro k hk
  rcases Nat.lt_succ_iff_lt_or_eq.mp hk with hk | rfl
  · exact h k hk
  · exact ⟨hh, ha⟩

theorem periods_succ {fuel : ℕ} {out : List PrimitiveDateTime} :
    Returns (r.periods dtstart lo hi (fuel + 1) n (r.emitted dtstart n) out) ↔
      r.StepSafe dtstart hi n ∧ (¬ r.Halts hi (r.emitted dtstart n) (r.occurrences dtstart n) →
          r.periodStartAfter dtstart n hi = .ok false →
          Returns (r.periods dtstart lo hi fuel (n + 1) (r.emitted dtstart (n + 1))
            (out ++ (r.occurrences dtstart n).filter fun dt => lo ≤ dt))) := by
  rw [periods, returns_bind]
  constructor
  · rintro ⟨set, hset, h⟩
    rw [← occurrences_of_ok hset, returns_bind] at h
    obtain ⟨flow, hflow, h⟩ := h
    have hp : r.PeriodSafe dtstart n := returns_periodSet.mp ⟨set, hset⟩
    have hfits := returns_scan.mp ⟨flow, hflow⟩
    cases flow with
    | stop out' =>
      have hh := scan_eq_stop hflow
      exact ⟨⟨hp, hfits, fun h => absurd hh h⟩, fun h => absurd hh h⟩
    | next e out' =>
      obtain ⟨hh, rfl, rfl⟩ := scan_eq_next hflow
      obtain ⟨b, hb, h⟩ := returns_bind.mp h
      refine ⟨⟨hp, hfits, fun _ => ?_⟩, fun _ hfalse => ?_⟩
      · exact (returns_periodStartAfter ⟨set, hset⟩).mp ⟨b, hb⟩
      · rw [hfalse] at hb
        cases hb
        exact h
  · rintro ⟨⟨hp, hfits, hstart⟩, hrest⟩
    obtain ⟨set, hset⟩ := returns_periodSet.mpr hp
    refine ⟨set, hset, ?_⟩
    rw [← occurrences_of_ok hset, returns_bind]
    have hscan : Returns (r.scan lo hi (r.occurrences dtstart n) (r.emitted dtstart n) out) :=
      returns_scan.mpr hfits
    obtain ⟨flow, hflow⟩ := hscan
    refine ⟨flow, hflow, ?_⟩
    cases flow with
    | stop out' => exact returns_ok _
    | next e out' =>
      obtain ⟨hh, rfl, rfl⟩ := scan_eq_next hflow
      have hafter : Returns (r.periodStartAfter dtstart n hi) :=
        (returns_periodStartAfter ⟨set, hset⟩).mpr (hstart hh)
      obtain ⟨b, hb⟩ := hafter
      refine returns_bind.mpr ⟨b, hb, ?_⟩
      cases b with
      | true => exact returns_ok _
      | false => exact hrest hh hb

theorem returns_periods {fuel : ℕ} {out : List PrimitiveDateTime} (hn : r.Reached dtstart hi n) :
    Returns (r.periods dtstart lo hi fuel n (r.emitted dtstart n) out) ↔
      ∀ m, n ≤ m → m < n + fuel → r.Reached dtstart hi m → r.StepSafe dtstart hi m := by
  induction fuel generalizing n out with
  | zero => exact ⟨fun _ m h1 h2 => by omega, fun _ => returns_ok _⟩
  | succ fuel ih =>
    rw [periods_succ]
    constructor
    · rintro ⟨hsafe, hrest⟩ m hle hlt hreach
      rcases hle.eq_or_lt with rfl | hnm
      · exact hsafe
      obtain ⟨hh, ha⟩ := hreach n hnm
      obtain ⟨b, hb⟩ := (returns_periodStartAfter (returns_periodSet.mpr hsafe.1)).mpr (hsafe.2.2 hh)
      have hfalse : r.periodStartAfter dtstart n hi = .ok false := by
        cases b
        · exact hb
        · exact absurd hb ha
      exact (ih (reached_succ hn hh ha)).mp (hrest hh hfalse) m hnm (by omega) hreach
    · intro h
      refine ⟨h n le_rfl (by omega) hn, fun hh hfalse => ?_⟩
      have ha : r.periodStartAfter dtstart n hi ≠ .ok true := by rw [hfalse]; simp
      exact (ih (reached_succ hn hh ha)).mpr fun m hle hlt => h m (by omega) (by omega)

/-- **An expansion returns exactly when every period it reaches is in range.** -/
theorem returns_expand : Returns (r.expand dtstart lo hi) ↔
    ∀ n < maxPeriods, r.Reached dtstart hi n → r.StepSafe dtstart hi n := by
  have h0 : r.Reached dtstart hi 0 := fun k hk => absurd hk (not_lt_zero k)
  have h : Returns (r.periods dtstart lo hi maxPeriods 0 (r.emitted dtstart 0) []) ↔ _ :=
    returns_periods h0
  simp only [zero_add, zero_le, true_imp_iff] at h
  exact h

end Periods

end RRule

end UldrenLoom.Rrule
