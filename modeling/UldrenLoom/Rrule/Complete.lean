import UldrenLoom.Rrule.Safety

/-!
# What an expansion returns

* **`complete_iff`**: without `COUNT` and `UNTIL` an expansion misses an element of a period in the
  window exactly when the period comes after the cap of the loop.
-/

namespace UldrenLoom.Rrule

open Fallible Calendar List Nat PrimitiveDateTime Date

/-! ## Dates of a month, of a year, of a week -/

theorem Date.month_bounds (d : Date) : 1 ≤ d.month ∧ d.month ≤ 12 := by
  constructor
  · refine countP_pos_iff.mpr ⟨1, by simp, ?_⟩
    rw [decide_eq_true_eq, firstOfMonth_one]
    exact jan1_yearOf_le d.day
  · exact countP_le_length

section Dates

variable {y : ℤ} {d : Date}

theorem Date.mem_month {m k : ℕ} (h : Date.fromCalendarDate y m k = some d) :
    firstOfMonth y m ≤ d.day ∧ d.day < firstOfMonth y m + monthLength y m := by
  rw [Date.fromCalendarDate] at h
  split_ifs at h with hk
  rw [Date.ofDay?_eq_some.mp h]
  omega

theorem Date.mem_year {k : ℤ} (h : Date.fromOrdinalDate y k = some d) :
    jan1 y ≤ d.day ∧ d.day < jan1 (y + 1) := by
  rw [Date.fromOrdinalDate] at h
  split_ifs at h with hk
  rw [Date.ofDay?_eq_some.mp h, jan1_succ]
  omega

theorem Weekday.numberDaysFromMonday_lt (wd : Weekday) : wd.numberDaysFromMonday < 7 := by
  cases wd <;> decide

theorem Date.mem_isoYear {week : ℤ} {wd : Weekday}
    (h : Date.fromIsoWeekDate y week wd = .ok (some d)) :
    isoWeek1 y ≤ d.day ∧ d.day < isoWeek1 (y + 1) := by
  have hwd := wd.numberDaysFromMonday_lt
  rw [Date.fromIsoWeekDate] at h
  split_ifs at h with hw
  swap
  · cases h
  cases hd : Date.ofDay? (isoWeek1 y + 7 * (week - 1) + wd.numberDaysFromMonday) with
  | none =>
    rw [hd] at h
    cases h
  | some e =>
    rw [hd] at h
    cases h
    rw [Date.ofDay?_eq_some.mp hd, isoWeek1_succ]
    omega

theorem nth_mem {α : Type} {list : List α} {o : ℤ} {a : α} (h : nth list o = .ok (some a)) :
    a ∈ list := by
  unfold nth at h
  split_ifs at h
  · exact mem_of_getElem? (Except.ok.inj h)
  · exact mem_of_getElem? (Except.ok.inj h)
  · cases h
  · cases h

theorem toList_mem {α : Type} {x : Except Fault (Option α)} {out : List α}
    (h : Option.toList <$> x = .ok out) {a : α} (ha : a ∈ out) : x = .ok (some a) := by
  cases x with
  | error f => cases h
  | ok y =>
    cases h
    rw [Option.mem_toList.mp ha]

theorem ByDay.dates_mem {all : Weekday → List Date} {b : ByDay} {out : List Date}
    (h : b.dates all = .ok out) (hd : d ∈ out) : d ∈ all b.weekday := by
  unfold ByDay.dates at h
  split at h
  · cases h
    exact hd
  · exact nth_mem (toList_mem h hd)

end Dates

namespace RRule

/-- What has been taken when a period is left. -/
def Flow.out : Flow → List PrimitiveDateTime
  | .stop out => out
  | .next _ out => out

variable {r : RRule} {dtstart : PrimitiveDateTime} {m n : ℕ} {d start : Date}

theorem monthDates_mem {y : ℤ} {startDay : ℕ} {out : List Date}
    (h : r.monthDates y m startDay = .ok out) (hd : d ∈ out) :
    firstOfMonth y m ≤ d.day ∧ d.day < firstOfMonth y m + monthLength y m := by
  unfold monthDates at h
  split_ifs at h with h1 h2
  · cases h
    obtain ⟨md, -, hmd⟩ := mem_filterMap.mp hd
    obtain ⟨day, -, hday⟩ := Option.bind_eq_some_iff.mp hmd
    obtain ⟨e, he, hif⟩ := Option.bind_eq_some_iff.mp hday
    split_ifs at hif
    cases hif
    exact mem_month he
  · obtain ⟨b, -, ys, hys, hmem⟩ := concatMap_mem h hd
    have hall := ByDay.dates_mem hys hmem
    obtain ⟨k, -, hk⟩ := mem_filterMap.mp (mem_of_mem_filter hall)
    exact mem_month hk
  · cases h
    exact mem_month (Option.mem_toList.mp hd)

theorem yearMonths_bounds (hm : m ∈ r.yearMonths start) : 1 ≤ m ∧ m ≤ 12 := by
  unfold yearMonths at hm
  split_ifs at hm with h1 h2
  · obtain ⟨n, -, rfl⟩ := mem_map.mp hm
    exact n.2
  · rw [mem_range'_1] at hm
    omega
  · rw [mem_singleton.mp hm]
    exact start.month_bounds

/-- The rule counts the weeks of ISO years. -/
def byIsoYear (r : RRule) : Prop := r.byYearDay = [] ∧ r.byWeekNo ≠ []

instance (r : RRule) : Decidable r.byIsoYear := inferInstanceAs (Decidable (_ ∧ _))

/-- The first day of a year of a yearly rule. -/
def yearStart (r : RRule) (y : ℤ) : ℤ := if r.byIsoYear then isoWeek1 y else jan1 y

theorem yearStart_strictMono (r : RRule) : StrictMono r.yearStart := by
  intro y z h
  unfold yearStart
  split_ifs
  · exact isoWeek1_strictMono h
  · exact jan1_strictMono h

theorem yearDates_mem {y : ℤ} {out : List Date} (h : r.yearDates start y = .ok out) (hd : d ∈ out) :
    r.yearStart y ≤ d.day ∧ d.day < r.yearStart (y + 1) := by
  unfold yearDates at h
  split_ifs at h with h1 h2
  · cases h
    have hiso : ¬ r.byIsoYear := fun hi => h1 hi.1
    rw [yearStart, yearStart, if_neg hiso, if_neg hiso]
    obtain ⟨yd, -, hyd⟩ := mem_filterMap.mp hd
    exact mem_year hyd
  · have hiso : r.byIsoYear := ⟨not_not.mp h1, h2⟩
    rw [yearStart, yearStart, if_pos hiso, if_pos hiso]
    obtain ⟨w, -, h⟩ := of_bind h
    obtain ⟨wn, -, ys, hys, hmem⟩ := concatMap_mem h hd
    obtain ⟨wd, -, zs, hzs, hmem'⟩ := concatMap_mem hys hmem
    exact mem_isoYear (toList_mem hzs hmem')
  · have hiso : ¬ r.byIsoYear := fun hi => h2 hi.2
    rw [yearStart, yearStart, if_neg hiso, if_neg hiso]
    unfold monthDrivenDates at h
    split_ifs at h
    · obtain ⟨b, -, ys, hys, hmem⟩ := concatMap_mem h hd
      have hall := ByDay.dates_mem hys hmem
      obtain ⟨k, -, hk⟩ := mem_filterMap.mp (mem_of_mem_filter hall)
      exact mem_year hk
    · obtain ⟨m, hm, ys, hys, hmem⟩ := concatMap_mem h hd
      obtain ⟨hm1, hm2⟩ := yearMonths_bounds hm
      have hmonth := monthDates_mem hys hmem
      have hyear := firstOfMonth_bounds y hm1 hm2
      omega

/-! ## Slots -/

/-- The year of period `n` is not wrapped. -/
def Exact (r : RRule) (n : ℕ) : Prop := r.freq = .yearly → n * r.interval < 2 ^ 31

/-- The nanosecond a slot begins at, `k` units of the frequency after the one of the start. -/
def slot (r : RRule) (dtstart : PrimitiveDateTime) (k : ℕ) : ℤ :=
  match r.freq with
  | .daily => (dtstart.date.day + k) * dayNanos
  | .weekly => (r.week0 dtstart.date + 7 * k) * dayNanos
  | .monthly => monthStart (12 * dtstart.date.year + (dtstart.date.month - 1 + k : ℕ)) * dayNanos
  | .yearly => r.yearStart (dtstart.date.year + k) * dayNanos
  | _ => (dtstart.nanos / (r.unit * 10 ^ 9 : ℕ) + k) * (r.unit * 10 ^ 9 : ℕ)

theorem unit_pos (r : RRule) : 0 < r.unit := by
  unfold unit
  split <;> decide

theorem slot_strictMono (r : RRule) (dtstart : PrimitiveDateTime) : StrictMono (r.slot dtstart) := by
  have hday : (0 : ℤ) < dayNanos := by decide
  have hunit : (0 : ℤ) < (r.unit * 10 ^ 9 : ℕ) := by exact_mod_cast mul_pos r.unit_pos (by decide)
  intro k l h
  unfold slot
  cases r.freq <;> dsimp only
  case daily => exact mul_lt_mul_of_pos_right (by omega) hday
  case weekly => exact mul_lt_mul_of_pos_right (by omega) hday
  case monthly => exact mul_lt_mul_of_pos_right (monthStart_strictMono (by omega)) hday
  case yearly => exact mul_lt_mul_of_pos_right (r.yearStart_strictMono (by omega)) hday
  all_goals exact mul_lt_mul_of_pos_right (by omega) hunit

/-! ## A period lies in its slot -/

theorem slot_bounds_date {lo hi : ℤ} (h : lo ≤ d.day ∧ d.day < hi) (t : Time) :
    lo * dayNanos ≤ (PrimitiveDateTime.mk d t).nanos ∧
      (PrimitiveDateTime.mk d t).nanos < hi * dayNanos := by
  have ht := t.lt_dayNanos
  simp only [PrimitiveDateTime.nanos, dayNanos] at *
  omega

theorem periodDates_bounds {out : List Date} (hsub : r.subdaily = false) (he : r.Exact n)
    (h : r.periodDates dtstart.date n = .ok out) : ∃ lo hi : ℤ,
      r.slot dtstart (n * r.interval) = lo * dayNanos ∧
      r.slot dtstart (n * r.interval + 1) = hi * dayNanos ∧ ∀ d ∈ out, lo ≤ d.day ∧ d.day < hi := by
  unfold periodDates at h
  unfold slot
  cases hf : r.freq <;> simp only [hf, subdaily] at h hsub ⊢
  case daily =>
    refine ⟨_, _, rfl, rfl, fun d hd => ?_⟩
    obtain ⟨e, he, h⟩ := of_bind h
    cases h
    split_ifs at hd
    · rw [mem_singleton.mp hd, addDays_eq_ok.mp he]
      omega
    · cases hd
  case weekly =>
    refine ⟨_, _, rfl, rfl, fun d hd => ?_⟩
    obtain ⟨week, hw, h⟩ := of_bind h
    obtain ⟨ds, hds, h⟩ := of_bind h
    cases h
    obtain ⟨wd, -, hwd⟩ := mapM_mem hds (mem_of_mem_filter hd)
    rw [addDays_eq_ok.mp hwd, day_of_weekStart hw]
    have : dayOffset r.wkst wd < 7 := mod_lt _ (by decide)
    omega
  case monthly =>
    obtain ⟨p, hp, h⟩ := of_bind h
    obtain ⟨-, rfl⟩ := periodMonth_eq_ok.mp hp
    refine ⟨_, _, rfl, rfl, fun d hd => ?_⟩
    dsimp only at h
    split_ifs at h
    · have hmem := monthDates_mem h hd
      obtain ⟨hlo, hhi⟩ := monthStart_add dtstart.date.year (dtstart.date.month - 1 + n * r.interval)
      rw [← add_assoc (dtstart.date.month - 1), hhi, hlo]
      exact hmem
    · cases h
      cases hd
  case yearly =>
    obtain ⟨y, hy, h⟩ := of_bind h
    obtain ⟨ds, hds, h⟩ := of_bind h
    cases h
    obtain ⟨-, rfl, -⟩ := periodYear_eq_ok.mp hy
    refine ⟨_, _, rfl, rfl, fun d hd => ?_⟩
    have hmem := yearDates_mem hds (mem_of_mem_filter hd)
    rw [asI32, if_pos (he hf)] at hmem
    push_cast at hmem ⊢
    rwa [← add_assoc]
  all_goals cases hsub

variable {t : Time}

theorem subdailyMinutes_mem (hf : r.freq ≠ .hourly) (h : m ∈ r.subdailyMinutes t) :
    m = t.minute := by
  rw [subdailyMinutes, if_neg hf] at h
  split_ifs at h
  · exact mem_singleton.mp h
  · cases h

theorem subdailySeconds_mem {s : ℕ} (hf : r.freq = .secondly) (h : s ∈ r.subdailySeconds t) :
    s = t.second := by
  rw [subdailySeconds, if_pos hf] at h
  split_ifs at h
  · exact mem_singleton.mp h
  · cases h

variable {y base dt x hi lo : PrimitiveDateTime}

theorem subdaily_div_eq {s : ℕ} (hsub : r.subdaily = true) (hm : m ∈ r.subdailyMinutes base.time)
    (hs : s ∈ r.subdailySeconds base.time)
    (ht : Time.fromHms base.time.hour m (min s 59) = some t) :
    (PrimitiveDateTime.mk base.date t).nanos / (r.unit * 10 ^ 9 : ℕ) =
      base.nanos / (r.unit * 10 ^ 9 : ℕ) := by
  obtain ⟨hlt, ht⟩ := Time.fromHms_eq_some.mp ht
  have hbase := base.time.lt_dayNanos
  simp only [PrimitiveDateTime.nanos, ht, Time.hour, dayNanos] at hlt hbase ⊢
  cases hf : r.freq <;> simp only [subdaily, hf] at hsub
  case secondly =>
    obtain rfl := subdailyMinutes_mem (by simp [hf]) hm
    obtain rfl := subdailySeconds_mem hf hs
    simp only [unit, hf, Time.minute, Time.second]
    omega
  case minutely =>
    obtain rfl := subdailyMinutes_mem (by simp [hf]) hm
    simp only [unit, hf, Time.minute] at hlt ⊢
    omega
  case hourly =>
    simp only [unit, hf] at hlt ⊢
    omega
  all_goals cases hsub

theorem slot_of_subdaily (hsub : r.subdaily = true) (k : ℕ) : r.slot dtstart k =
    (dtstart.nanos / (r.unit * 10 ^ 9 : ℕ) + k) * (r.unit * 10 ^ 9 : ℕ) := by
  unfold slot
  cases hf : r.freq <;> simp only [subdaily, hf] at hsub ⊢
  all_goals cases hsub

theorem subdailyBase_div (hb : r.subdailyBase dtstart n = .ok base) :
    base.nanos / (r.unit * 10 ^ 9 : ℕ) =
      dtstart.nanos / (r.unit * 10 ^ 9 : ℕ) + (n * r.interval : ℕ) := by
  rw [subdailyBase, addSeconds_eq_ok] at hb
  have hunit : ((r.unit * 10 ^ 9 : ℕ) : ℤ) ≠ 0 := by
    exact_mod_cast (mul_pos r.unit_pos (by decide)).ne'
  rw [← Int.add_mul_ediv_right _ _ hunit, hb]
  congr 1
  push_cast
  ring

variable {out set : List PrimitiveDateTime}

theorem subdailySet_bounds (hsub : r.subdaily = true) (h : r.subdailySet dtstart n = .ok out)
    (hdt : dt ∈ out) :
    r.slot dtstart (n * r.interval) ≤ dt.nanos ∧ dt.nanos < r.slot dtstart (n * r.interval + 1) := by
  obtain ⟨base, hb, h⟩ := of_bind h
  split_ifs at h with hlim
  swap
  · cases h
    cases hdt
  cases h
  obtain ⟨m, hm, hdt⟩ := mem_flatMap.mp hdt
  obtain ⟨s, hs, hdt⟩ := mem_filterMap.mp hdt
  obtain ⟨t, ht, rfl⟩ := Option.map_eq_some_iff.mp hdt
  have hunit : (0 : ℤ) < (r.unit * 10 ^ 9 : ℕ) := by exact_mod_cast mul_pos r.unit_pos (by decide)
  have hdiv := (subdaily_div_eq hsub hm hs ht).trans (subdailyBase_div hb)
  rw [slot_of_subdaily hsub, slot_of_subdaily hsub, cast_succ, ← add_assoc, ← hdiv]
  exact ⟨Int.ediv_mul_le _ hunit.ne', Int.lt_ediv_add_one_mul_self _ hunit⟩

/-- **A period lies in its slot.** -/
theorem periodSet_bounds (he : r.Exact n) (h : r.periodSet dtstart n = .ok out) (hdt : dt ∈ out) :
    r.slot dtstart (n * r.interval) ≤ dt.nanos ∧ dt.nanos < r.slot dtstart (n * r.interval + 1) := by
  unfold periodSet at h
  split_ifs at h with hsub
  · exact subdailySet_bounds hsub h hdt
  · obtain ⟨ds, hds, h⟩ := of_bind h
    cases h
    obtain ⟨d, hd, hdt⟩ := mem_flatMap.mp hdt
    obtain ⟨t, -, rfl⟩ := mem_map.mp hdt
    obtain ⟨lo, hi, hlo, hhi, hb⟩ := periodDates_bounds (Bool.eq_false_iff.mpr hsub) he hds
    rw [hlo, hhi]
    exact slot_bounds_date (hb d hd) t

theorem lt_of_date_lt {d : ℤ} (h : x.date.day < d) : x.nanos < d * dayNanos := by
  have := x.time.lt_dayNanos
  simp only [PrimitiveDateTime.nanos, dayNanos] at *
  omega

theorem lt_slot_of_base (hsub : r.subdaily = true) (hb : r.subdailyBase dtstart n = .ok base) :
    base.nanos < r.slot dtstart (n * r.interval + 1) := by
  have hunit : (0 : ℤ) < (r.unit * 10 ^ 9 : ℕ) := by exact_mod_cast mul_pos r.unit_pos (by decide)
  rw [slot_of_subdaily hsub, cast_succ, ← add_assoc, ← subdailyBase_div hb]
  exact Int.lt_ediv_add_one_mul_self _ hunit

theorem jan1_lt_yearStart (r : RRule) (y : ℤ) : jan1 y < r.yearStart (y + 1) := by
  unfold yearStart
  split_ifs
  · exact jan1_lt_isoWeek1_succ y
  · exact jan1_strictMono (lt_add_one y)

theorem lt_jan1_of_all {y : ℤ} (hy : start.year ≤ y)
    (h : (Date.fromCalendarDate y 1 1).all (fun d => hi.date.day < d.day) = true) :
    hi.date.day < jan1 y := by
  cases hd : Date.fromCalendarDate y 1 1 with
  | some d =>
    rw [hd, Option.all_some, decide_eq_true_eq] at h
    have hday : d.day = jan1 y := by
      rw [Date.fromCalendarDate, if_pos ⟨le_rfl, (by decide : 1 ≤ 28).trans (monthLength_pos y 1)⟩,
        Date.ofDay?_eq_some, firstOfMonth_one] at hd
      omega
    rwa [← hday]
  | none =>
    have hrange : ¬ (minYear ≤ y ∧ y ≤ maxYear) := by
      rw [← isSome_fromCalendarDate (m := 1) (d := 1) le_rfl (by decide) le_rfl (by decide), hd]
      simp
    have hmax : maxYear + 1 ≤ y := by
      have := start.year_bounds.1
      omega
    exact hi.date.lt_endDay.trans_le (jan1_strictMono.le_iff_le.mpr hmax)

/-- A window that ends before a period begins ends before the next slot. -/
theorem lt_slot_of_startAfter (he : r.Exact n) (h : r.periodStartAfter dtstart n hi = .ok true) :
    hi.nanos < r.slot dtstart (n * r.interval + 1) := by
  have hslot := r.slot_strictMono dtstart (lt_succ_self (n * r.interval))
  have hbase : ∀ base, r.subdaily = true → r.subdailyBase dtstart n = .ok base → hi < base →
      hi.nanos < r.slot dtstart (n * r.interval + 1) :=
    fun base hsub hb hlt => (lt_iff.mp hlt).trans (lt_slot_of_base hsub hb)
  unfold periodStartAfter at h
  unfold slot at hslot ⊢
  cases hf : r.freq <;> simp only [hf] at h hslot ⊢
  case daily =>
    obtain ⟨d, hd, h⟩ := of_bind h
    have hlt := of_decide_eq_true (Except.ok.inj h)
    rw [addDays_eq_ok.mp hd] at hlt
    exact (lt_of_date_lt hlt).trans hslot
  case weekly =>
    obtain ⟨d, hd, h⟩ := of_bind h
    have hlt := of_decide_eq_true (Except.ok.inj h)
    rw [day_of_weekStart hd] at hlt
    exact (lt_of_date_lt hlt).trans hslot
  case monthly =>
    obtain ⟨p, hp, h⟩ := of_bind h
    obtain ⟨-, rfl⟩ := periodMonth_eq_ok.mp hp
    obtain ⟨d, hd, h⟩ := of_bind h
    have hlt := of_decide_eq_true (Except.ok.inj h)
    have hmem := (mem_month (orFault_eq_ok.mp hd)).2
    rw [← add_assoc (dtstart.date.month - 1), (monthStart_add dtstart.date.year _).2]
    exact lt_of_date_lt (hlt.trans hmem)
  case yearly =>
    obtain ⟨y, hy, h⟩ := of_bind h
    obtain ⟨-, rfl, -⟩ := periodYear_eq_ok.mp hy
    rw [asI32, if_pos (he hf)] at h
    have hle : dtstart.date.year ≤ dtstart.date.year + (n * r.interval : ℕ) := by omega
    have hlt := lt_jan1_of_all hle (Except.ok.inj h)
    rw [cast_succ, ← add_assoc]
    exact lt_of_date_lt (hlt.trans (r.jan1_lt_yearStart _))
  all_goals
    obtain ⟨base, hb, h⟩ := of_bind h
    have hlt := of_decide_eq_true (Except.ok.inj h)
    have hres := hbase base (by simp [subdaily, hf]) hb hlt
    simpa only [slot, hf] using hres

/-! ## The occurrences of a period -/

theorem sorted_pairwise (set : List PrimitiveDateTime) : (sorted set).Pairwise (· < ·) :=
  pairwise_map.mpr (SortedSet.ofList set).map.ascending

theorem mem_sorted :
    dt ∈ sorted set ↔ dt ∈ set := by rw [sorted, SortedSet.mem_elems, SortedSet.mem_ofList]

theorem selectSetPos_mem {positions : List ℤ} (h : dt ∈ selectSetPos set positions) : dt ∈ set := by
  obtain ⟨p, -, hp⟩ := mem_filterMap.mp (mem_sorted.mp h)
  split_ifs at hp
  · exact mem_of_getElem? hp
  · exact mem_of_getElem? hp

theorem selected_mem (h : dt ∈ r.selected dtstart set) : dt ∈ set ∧ dtstart ≤ dt := by
  obtain ⟨h, hle⟩ := mem_filter.mp h
  refine ⟨?_, of_decide_eq_true hle⟩
  split_ifs at h
  · exact mem_sorted.mp h
  · exact mem_sorted.mp (selectSetPos_mem h)

theorem selected_pairwise (set : List PrimitiveDateTime) :
    (r.selected dtstart set).Pairwise (· < ·) := by
  refine List.Pairwise.filter _ ?_
  split_ifs
  · exact sorted_pairwise set
  · exact sorted_pairwise _

theorem sorted_length_le (set : List PrimitiveDateTime) : (sorted set).length ≤ set.length :=
  ((SortedSet.nodup_elems _).subperm fun _ h => mem_sorted.mp h).length_le

theorem selected_length_le (h : r.bySetPos = []) :
    (r.selected dtstart set).length ≤ set.length := by
  refine (length_filter_le _ _).trans ?_
  rw [if_pos h]
  exact sorted_length_le set

theorem occurrences_pairwise (n : ℕ) : (r.occurrences dtstart n).Pairwise (· < ·) := by
  unfold occurrences
  split
  · exact selected_pairwise _
  · exact List.Pairwise.nil

theorem occurrences_mem (h : dt ∈ r.occurrences dtstart n) :
    dtstart ≤ dt ∧ ∃ set, r.periodSet dtstart n = .ok set ∧ dt ∈ set := by
  unfold occurrences at h
  split at h
  · rename_i set hset
    obtain ⟨hmem, hle⟩ := selected_mem h
    exact ⟨hle, set, hset, hmem⟩
  · cases h

theorem occurrences_bounds (he : r.Exact n) (h : dt ∈ r.occurrences dtstart n) :
    r.slot dtstart (n * r.interval) ≤ dt.nanos ∧ dt.nanos < r.slot dtstart (n * r.interval + 1) := by
  obtain ⟨-, set, hset, hmem⟩ := occurrences_mem h
  exact periodSet_bounds he hset hmem

theorem Exact.of_le (h : r.Exact n) (hmn : m ≤ n) : r.Exact m := by
  intro hf
  exact (mul_le_mul_right _ hmn).trans_lt (h hf)

theorem slot_le_slot (h : m < n) :
    r.slot dtstart (m * r.interval + 1) ≤ r.slot dtstart (n * r.interval) := by
  refine (r.slot_strictMono dtstart).monotone ?_
  have hpos := r.interval.2.1
  have hle := mul_le_mul_right r.interval.1 (succ_le_of_lt h)
  rw [succ_mul] at hle
  omega

/-- **A later period comes later.** -/
theorem occurrences_lt (he : r.Exact n) (hmn : m < n) (hx : x ∈ r.occurrences dtstart m)
    (hy : y ∈ r.occurrences dtstart n) : x < y := by
  rw [lt_iff]
  exact (occurrences_bounds (he.of_le hmn.le) hx).2.trans_le
    ((slot_le_slot hmn).trans (occurrences_bounds he hy).1)

theorem lt_occurrences_of_startAfter (he : r.Exact n) (hmn : m < n)
    (h : r.periodStartAfter dtstart m hi = .ok true) (hy : y ∈ r.occurrences dtstart n) : hi < y := by
  rw [lt_iff]
  exact (lt_slot_of_startAfter (he.of_le hmn.le) h).trans_le
    ((slot_le_slot hmn).trans (occurrences_bounds he hy).1)

/-! ## What the loop takes -/

theorem mem_keep : dt ∈ keep lo x out ↔ dt ∈ out ∨ (dt = x ∧ lo ≤ dt) := by
  unfold keep
  split_ifs with h
  · rw [mem_append, mem_singleton]
    exact or_congr_right ⟨fun hx => ⟨hx, hx ▸ h⟩, And.left⟩
  · exact ⟨.inl, fun ho => ho.resolve_right fun hx => h (hx.1 ▸ hx.2)⟩

theorem mem_scan {emitted : ℕ} {flow : Flow} (h : r.scan lo hi set emitted out = .ok flow)
    (dt : PrimitiveDateTime) : dt ∈ flow.out ↔ dt ∈ out ∨
      (lo ≤ dt ∧ dt < hi ∧ ∃ i, set[i]? = some dt ∧ r.Counted hi emitted set i) := by
  induction set generalizing emitted out with
  | nil =>
    cases h
    exact ⟨.inl, fun ho => ho.resolve_right fun ⟨_, _, i, hi, _⟩ => by simp at hi⟩
  | cons x set ih =>
    rw [scan] at h
    split_ifs at h with h1 h2 h3
    · cases h
      refine ⟨.inl, fun ho => ho.resolve_right ?_⟩
      rintro ⟨-, -, i, -, hc⟩
      cases i with
      | zero => exact counted_zero.mp hc h1
      | succ i => exact (counted_succ.mp hc).1.1 h1
    · cases h
      refine ⟨.inl, fun ho => ho.resolve_right ?_⟩
      rintro ⟨-, hlt, i, hx, hc⟩
      cases i with
      | zero =>
        cases hx
        exact absurd hlt (not_lt.mpr h3)
      | succ i => exact absurd (counted_succ.mp hc).1.2 (not_lt.mpr h3)
    · rw [ih h, mem_keep, or_assoc]
      refine or_congr_right ⟨?_, ?_⟩
      · rintro (⟨rfl, hlo⟩ | ⟨hlo, hlt, i, hx, hc⟩)
        · exact ⟨hlo, not_le.mp h3, 0, rfl, counted_zero.mpr h1⟩
        · exact ⟨hlo, hlt, i + 1, hx, counted_succ.mpr ⟨⟨h1, not_le.mp h3⟩, hc⟩⟩
      · rintro ⟨hlo, hlt, i, hx, hc⟩
        cases i with
        | zero =>
          cases hx
          exact .inl ⟨rfl, hlo⟩
        | succ i => exact .inr ⟨hlo, hlt, i, hx, (counted_succ.mp hc).2⟩

/-- The loop takes the element of index `i` of period `n`. -/
def Takes (r : RRule) (dtstart hi : PrimitiveDateTime) (n i : ℕ) (dt : PrimitiveDateTime) : Prop :=
  r.Reached dtstart hi n ∧ (r.occurrences dtstart n)[i]? = some dt ∧
    r.Counted hi (r.emitted dtstart n) (r.occurrences dtstart n) i

theorem mem_periods {fuel : ℕ} {res : List PrimitiveDateTime} (hn : r.Reached dtstart hi n)
    (h : r.periods dtstart lo hi fuel n (r.emitted dtstart n) out = .ok res)
    (dt : PrimitiveDateTime) :
    dt ∈ res ↔ dt ∈ out ∨ (lo ≤ dt ∧ dt < hi ∧
      ∃ m i, n ≤ m ∧ m < n + fuel ∧ r.Takes dtstart hi m i dt) := by
  induction fuel generalizing n out with
  | zero =>
    cases h
    exact ⟨.inl, fun ho => ho.resolve_right fun ⟨_, _, m, i, h1, h2, _⟩ => by omega⟩
  | succ fuel ih =>
    rw [periods] at h
    obtain ⟨set, hset, h⟩ := of_bind h
    rw [← occurrences_of_ok hset] at h
    obtain ⟨flow, hflow, h⟩ := of_bind h
    have hmem := mem_scan hflow dt
    -- the periods after this one, if the loop goes on
    have hlast : (∀ m, n < m → ¬ r.Reached dtstart hi m) → res = flow.out → (dt ∈ res ↔ dt ∈ out ∨
        (lo ≤ dt ∧ dt < hi ∧ ∃ m i, n ≤ m ∧ m < n + (fuel + 1) ∧ r.Takes dtstart hi m i dt)) := by
      rintro hend rfl
      rw [hmem]
      refine or_congr_right (and_congr_right fun _ => and_congr_right fun _ => ⟨?_, ?_⟩)
      · rintro ⟨i, hi', hc⟩
        exact ⟨n, i, le_rfl, by omega, hn, hi', hc⟩
      · rintro ⟨m, i, hle, -, hr, hi', hc⟩
        rcases hle.eq_or_lt with rfl | hlt
        · exact ⟨i, hi', hc⟩
        · exact absurd hr (hend m hlt)
    cases flow with
    | stop out' =>
      cases h
      exact hlast (fun m hm hr => (hr n hm).1 (scan_eq_stop hflow)) rfl
    | next e out' =>
      obtain ⟨hh, rfl, -⟩ := scan_eq_next hflow
      obtain ⟨b, hb, h⟩ := of_bind h
      cases b with
      | true =>
        cases h
        exact hlast (fun m hm hr => (hr n hm).2 hb) rfl
      | false =>
        have hsucc := reached_succ hn hh (by rw [hb]; simp)
        rw [Flow.out] at hmem
        rw [ih hsucc h, hmem, or_assoc]
        refine or_congr_right ⟨?_, ?_⟩
        · rintro (⟨hlo, hlt, i, hi', hc⟩ | ⟨hlo, hlt, m, i, hle, hm, ht⟩)
          · exact ⟨hlo, hlt, n, i, le_rfl, by omega, hn, hi', hc⟩
          · exact ⟨hlo, hlt, m, i, by omega, by omega, ht⟩
        · rintro ⟨hlo, hlt, m, i, hle, hm, ht⟩
          rcases hle.eq_or_lt with rfl | hnm
          · exact .inl ⟨hlo, hlt, i, ht.2⟩
          · exact .inr ⟨hlo, hlt, m, i, hnm, by omega, ht⟩

/-- **What an expansion returns**: the elements in the window that the loop takes. -/
theorem mem_expand (h : r.expand dtstart lo hi = .ok out) (dt : PrimitiveDateTime) :
    dt ∈ out ↔ lo ≤ dt ∧ dt < hi ∧ ∃ n < maxPeriods, ∃ i, r.Takes dtstart hi n i dt := by
  have h0 : r.Reached dtstart hi 0 := fun k hk => absurd hk (not_lt_zero k)
  have hmem := mem_periods h0 h dt
  simp only [not_mem_nil, false_or, zero_le, true_and, zero_add] at hmem
  rw [hmem]
  refine and_congr_right fun _ => and_congr_right fun _ => ?_
  exact ⟨fun ⟨n, i, hn, ht⟩ => ⟨n, hn, i, ht⟩, fun ⟨n, hn, i, ht⟩ => ⟨n, i, hn, ht⟩⟩

/-! ## Completeness -/

/-- The element of index `i` of period `n` is within `COUNT` and `UNTIL`. -/
def Occurs (r : RRule) (dtstart : PrimitiveDateTime) (n i : ℕ) (dt : PrimitiveDateTime) : Prop :=
  (r.occurrences dtstart n)[i]? = some dt ∧ ¬ r.exhausted (r.emitted dtstart n + i) dt = true

theorem exhausted_mono {e e' : ℕ} (he : e ≤ e') (hxy : x ≤ y) (h : r.exhausted e x = true) :
    r.exhausted e' y = true := by
  rw [exhausted, Bool.or_eq_true, Option.any_eq_true, Option.any_eq_true] at h ⊢
  simp only [decide_eq_true_eq] at h ⊢
  refine h.imp ?_ ?_
  · rintro ⟨u, hu, hlt⟩
    exact ⟨u, hu, hlt.trans_le hxy⟩
  · rintro ⟨c, hc, hle⟩
    exact ⟨c, hc, hle.trans he⟩

theorem emitted_mono (r : RRule) (dtstart : PrimitiveDateTime) : Monotone (r.emitted dtstart) :=
  monotone_nat_of_le_succ fun _ => le_add_right _ _

theorem counted_of_occurs {i : ℕ} (h : r.Occurs dtstart n i dt) (hlt : dt < hi) :
    r.Counted hi (r.emitted dtstart n) (r.occurrences dtstart n) i := by
  obtain ⟨hi', hex⟩ := h
  refine ⟨⟨dt, hi', hex⟩, fun j hj x hx => ?_⟩
  obtain ⟨hjlt, hjx⟩ := List.getElem?_eq_some_iff.mp hx
  obtain ⟨hilt, hidt⟩ := List.getElem?_eq_some_iff.mp hi'
  have hxdt : x < dt := by
    have := pairwise_iff_getElem.mp (occurrences_pairwise n) j i hjlt hilt hj
    rwa [hjx, hidt] at this
  exact ⟨fun hx' => hex (exhausted_mono (by omega) hxdt.le hx'), hxdt.trans hlt⟩

theorem takes_of_occurs {i : ℕ} (he : r.Exact n) (h : r.Occurs dtstart n i dt) (hlt : dt < hi) :
    r.Takes dtstart hi n i dt := by
  have hmem := mem_of_getElem? h.1
  refine ⟨fun k hk => ⟨?_, fun ha => ?_⟩, h.1, counted_of_occurs h hlt⟩
  · rintro ⟨j, x, hx, hor⟩
    have hxdt := occurrences_lt he hk (mem_of_getElem? hx) hmem
    obtain ⟨hjlt, -⟩ := List.getElem?_eq_some_iff.mp hx
    have hcount : r.emitted dtstart k + j ≤ r.emitted dtstart n + i := by
      have := r.emitted_mono dtstart (succ_le_of_lt hk)
      simp only [emitted] at this
      omega
    rcases hor with hx' | hx'
    · exact h.2 (exhausted_mono hcount hxdt.le hx')
    · exact absurd (hx'.trans_lt hxdt) (not_lt.mpr hlt.le)
  · exact absurd (lt_occurrences_of_startAfter he hk ha hmem) (not_lt.mpr hlt.le)

/-- Every element of every period from the start on that is in the window is returned. -/
def Complete (r : RRule) (dtstart lo hi : PrimitiveDateTime) (out : List PrimitiveDateTime) : Prop :=
  ∀ n, r.Exact n → ∀ dt ∈ r.occurrences dtstart n, lo ≤ dt → dt < hi → dt ∈ out

theorem lt_maxPeriods_of_mem (h : r.expand dtstart lo hi = .ok out) (he : r.Exact n)
    (hdt : dt ∈ r.occurrences dtstart n) (hmem : dt ∈ out) : n < maxPeriods := by
  obtain ⟨-, -, m, hm, i, ht⟩ := (mem_expand h dt).mp hmem
  by_contra hn
  exact lt_irrefl dt (occurrences_lt he (hm.trans_le (not_lt.mp hn)) (mem_of_getElem? ht.2.1) hdt)

/-- **An expansion without `COUNT` and `UNTIL` is complete exactly when no period after its cap meets
the window.** -/
theorem complete_iff {lo hi : PrimitiveDateTime} {out : List PrimitiveDateTime}
    (hcount : r.count = none) (huntil : r.untilTime = none)
    (h : r.expand dtstart lo hi = .ok out) : r.Complete dtstart lo hi out ↔
      ∀ n, maxPeriods ≤ n → r.Exact n → ∀ dt ∈ r.occurrences dtstart n, ¬ (lo ≤ dt ∧ dt < hi) := by
  constructor
  · rintro hc n hn he dt hdt ⟨hlo, hlt⟩
    exact absurd (lt_maxPeriods_of_mem h he hdt (hc n he dt hdt hlo hlt)) (not_lt.mpr hn)
  · intro hcap n he dt hdt hlo hlt
    have hn : n < maxPeriods := by
      by_contra hn
      exact hcap n (not_lt.mp hn) he dt hdt ⟨hlo, hlt⟩
    obtain ⟨i, hi'⟩ := mem_iff_getElem?.mp hdt
    have hex : ¬ r.exhausted (r.emitted dtstart n + i) dt = true := by
      rw [exhausted, hcount, huntil]
      simp
    exact (mem_expand h dt).mpr ⟨hlo, hlt, n, hn, i, takes_of_occurs he ⟨hi', hex⟩ hlt⟩

theorem length_occurrences_le (r : RRule) (dtstart : PrimitiveDateTime) (hf : r.freq = .secondly)
    (hpos : r.bySetPos = []) (n : ℕ) : (r.occurrences dtstart n).length ≤ 1 := by
  unfold occurrences
  split
  · rename_i set hset
    refine (selected_length_le hpos).trans ?_
    rw [periodSet, if_pos (by simp [subdaily, hf]), subdailySet] at hset
    obtain ⟨base, -, h⟩ := of_bind hset
    split_ifs at h
    · cases h
      have hhour : r.freq ≠ .hourly := by simp [hf]
      rw [subdailyMinutes, subdailySeconds, if_neg hhour, if_pos hf]
      split_ifs
      all_goals simp only [flatMap_singleton, flatMap_nil, filterMap_nil, length_nil, zero_le]
      exact length_filterMap_le _ _
    · cases h
      exact zero_le 1
  · exact zero_le 1

end RRule

namespace Sample

open RRule

def newYear : PrimitiveDateTime :=
  ⟨⟨738885, by rw [minDay_eq]; omega, by rw [endDay_eq]; omega⟩, Time.midnight⟩

def newYearDay (d : Fin 30) : PrimitiveDateTime :=
  ⟨⟨738885 + d, by rw [minDay_eq]; omega, by rw [endDay_eq]; omega⟩, Time.midnight⟩

def every (freq : Frequency) : RRule := { RRule.empty with freq := freq }

def late (s : Fin 60) : PrimitiveDateTime :=
  ⟨⟨738896, by rw [minDay_eq]; omega, by rw [endDay_eq]; omega⟩,
    ⟨(13 * 3600 + 46 * 60 + 40 + s) * 10 ^ 9 % dayNanos, Nat.mod_lt _ (by decide)⟩⟩

theorem late_mem : late 0 ∈ (every .secondly).occurrences newYear 1000000 := by decide +kernel

theorem emitted_secondly_le (n : ℕ) : (every .secondly).emitted newYear n ≤ n := by
  induction n with
  | zero => exact le_rfl
  | succ n ih =>
    have := length_occurrences_le (every .secondly) newYear rfl rfl n
    rw [emitted]
    omega

theorem returns_secondly (lo hi : PrimitiveDateTime) :
    Returns ((every .secondly).expand newYear lo hi) := by
  rw [returns_expand]
  intro n hn _
  rw [maxPeriods] at hn
  refine ⟨?_, ?_, fun _ hf => (nomatch hf)⟩
  · change newYear.nanos + ((n * 1 * 1 : ℕ) : ℤ) * 10 ^ 9 < endDay * dayNanos
    have hstart : newYear.nanos = 738885 * dayNanos := by
      simp [PrimitiveDateTime.nanos, newYear, Time.midnight]
    rw [hstart, endDay_eq, dayNanos]
    omega
  · rintro i ⟨⟨dt, hi', -⟩, -⟩
    obtain ⟨hlt, -⟩ := List.getElem?_eq_some_iff.mp hi'
    have hlen := length_occurrences_le (every .secondly) newYear rfl rfl n
    have := emitted_secondly_le n
    omega

/-- The million-and-first second is missed. -/
theorem secondly_not_complete : ∃ out, (every .secondly).expand newYear (late 0) (late 1) = .ok out ∧
    ¬ (every .secondly).Complete newYear (late 0) (late 1) out := by
  obtain ⟨out, h⟩ := returns_secondly (late 0) (late 1)
  refine ⟨out, h, fun hc => ?_⟩
  have he : (every .secondly).Exact 1000000 := fun hf => by cases hf
  have hmem := hc 1000000 he (late 0) late_mem le_rfl (by decide +kernel)
  exact absurd (lt_maxPeriods_of_mem h he late_mem hmem) (lt_irrefl _)

theorem daily_complete : (every .daily).Complete newYear newYear (newYearDay 3)
    [newYearDay 0, newYearDay 1, newYearDay 2] := by
  refine (complete_iff rfl rfl (by decide +kernel)).mpr ?_
  rintro n hn he dt hdt ⟨-, hlt⟩
  have hb := (occurrences_bounds he hdt).1
  rw [lt_iff] at hlt
  have hslot : (every .daily).slot newYear (n * (every .daily).interval) =
      (738885 + (n * 1 : ℕ)) * dayNanos := rfl
  have hend : (newYearDay 3).nanos = 738888 * dayNanos := by
    simp [PrimitiveDateTime.nanos, newYearDay, Time.midnight]
  rw [hslot] at hb
  rw [hend] at hlt
  rw [maxPeriods] at hn
  simp only [dayNanos] at hb hlt
  omega

end Sample

end UldrenLoom.Rrule
