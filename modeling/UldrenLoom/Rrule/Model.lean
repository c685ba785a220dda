import UldrenLoom.Lib.Calendar
import UldrenLoom.Lib.Fallible
import UldrenLoom.Lib.SortedMap

/-!
# Recurrence rules

The expansion of an `RRULE` over wall-clock time.
-/

namespace UldrenLoom.Rrule

open Fallible Calendar

/-- Why an evaluation panics. -/
inductive Fault where
  | overflow
  | outOfRange
  | charBoundary
deriving Repr, DecidableEq

/-- The value of an option that must have one. -/
def orFault {α : Type} (f : Fault) : Option α → Except Fault α
  | some a => .ok a
  | none => .error f

theorem orFault_eq_ok {α : Type} {f : Fault} {x : Option α} {a : α} :
    orFault f x = .ok a ↔ x = some a := by cases x <;> simp [orFault]

/-! ## Dates -/

def minYear : ℤ := -9999
def maxYear : ℤ := 9999

def minDay : ℤ := jan1 minYear

/-- The first day that is no longer representable. -/
def endDay : ℤ := jan1 (maxYear + 1)

theorem minDay_eq : minDay = -3652425 := rfl
theorem endDay_eq : endDay = 3652059 := rfl

inductive Weekday where
  | monday
  | tuesday
  | wednesday
  | thursday
  | friday
  | saturday
  | sunday
deriving Repr, DecidableEq

def Weekday.numberDaysFromMonday : Weekday → ℕ
  | .monday => 0
  | .tuesday => 1
  | .wednesday => 2
  | .thursday => 3
  | .friday => 4
  | .saturday => 5
  | .sunday => 6

def Weekday.all : List Weekday :=
  [.monday, .tuesday, .wednesday, .thursday, .friday, .saturday, .sunday]

/-- A representable date, by the number of its day. -/
structure Date where
  day : ℤ
  minDay_le : minDay ≤ day
  lt_endDay : day < endDay
deriving Repr, DecidableEq

namespace Date

def ofDay? (d : ℤ) : Option Date := if h : minDay ≤ d ∧ d < endDay then some ⟨d, h.1, h.2⟩ else none

theorem ofDay?_eq_some {d : ℤ} {e : Date} : ofDay? d = some e ↔ e.day = d := by
  unfold ofDay?
  split_ifs with h
  · rw [Option.some.injEq]
    exact ⟨fun he => he ▸ rfl, fun he => by cases e; cases he; rfl⟩
  · exact ⟨fun he => (nomatch he), fun he => absurd (he ▸ ⟨e.minDay_le, e.lt_endDay⟩) h⟩

def year (d : Date) : ℤ := yearOf d.day
def month (d : Date) : ℕ := monthOf d.day
def dayOfMonth (d : Date) : ℕ := dayOf d.day
def ordinal (d : Date) : ℤ := d.day - jan1 d.year + 1

def weekday (d : Date) : Weekday := (Weekday.all[(d.day % 7).toNat]?).getD .monday

/-- `Date + Duration::days(k)`; a duration that does not fit an `i64` leaves the range as well. -/
def addDays (d : Date) (k : ℤ) : Except Fault Date := orFault .outOfRange (ofDay? (d.day + k))

theorem addDays_eq_ok {d e : Date} {k : ℤ} : d.addDays k = .ok e ↔ e.day = d.day + k := by
  rw [addDays, orFault_eq_ok, ofDay?_eq_some]

def fromCalendarDate (y : ℤ) (m d : ℕ) : Option Date :=
  if 1 ≤ d ∧ d ≤ monthLength y m then ofDay? (firstOfMonth y m + d - 1) else none

def fromOrdinalDate (y ordinal : ℤ) : Option Date :=
  if 1 ≤ ordinal ∧ ordinal ≤ daysInYear y then ofDay? (jan1 y + ordinal - 1) else none

/-- A day of a week of ISO 8601. The first and the last weeks of the range may leave it. -/
def fromIsoWeekDate (y week : ℤ) (wd : Weekday) : Except Fault (Option Date) :=
  if minYear ≤ y ∧ y ≤ maxYear ∧ 1 ≤ week ∧ week ≤ weeksInYear y then
    some <$> orFault .outOfRange (ofDay? (isoWeek1 y + 7 * (week - 1) + wd.numberDaysFromMonday))
  else .ok none

end Date

/-! ## Times -/

def dayNanos : ℕ := 86400 * 10 ^ 9

structure Time where
  nanos : ℕ
  lt_dayNanos : nanos < dayNanos
deriving Repr, DecidableEq

namespace Time

def hour (t : Time) : ℕ := t.nanos / (3600 * 10 ^ 9)
def minute (t : Time) : ℕ := t.nanos / (60 * 10 ^ 9) % 60
def second (t : Time) : ℕ := t.nanos / 10 ^ 9 % 60

def midnight : Time := ⟨0, by decide⟩

def fromHms (h m s : ℕ) : Option Time :=
  if hlt : h < 24 ∧ m < 60 ∧ s < 60 then
    some ⟨(h * 3600 + m * 60 + s) * 10 ^ 9, by unfold dayNanos; omega⟩
  else none

theorem fromHms_eq_some {h m s : ℕ} {t : Time} : fromHms h m s = some t ↔
      (h < 24 ∧ m < 60 ∧ s < 60) ∧ t.nanos = (h * 3600 + m * 60 + s) * 10 ^ 9 := by
  unfold fromHms
  split_ifs with hlt
  · rw [Option.some.injEq]
    exact ⟨fun ht => ⟨hlt, ht ▸ rfl⟩, fun ht => by cases t; cases ht.2; rfl⟩
  · exact ⟨fun ht => (nomatch ht), fun ht => absurd ht.1 hlt⟩

end Time

/-- A representable date and time of day. -/
structure PrimitiveDateTime where
  date : Date
  time : Time
deriving Repr, DecidableEq

namespace PrimitiveDateTime

/-- The nanoseconds since the first of January of year `1`. -/
def nanos (x : PrimitiveDateTime) : ℤ := x.date.day * dayNanos + x.time.nanos

theorem nanos_injective : Function.Injective nanos := by
  rintro ⟨⟨d, hd, hd'⟩, ⟨t, ht⟩⟩ ⟨⟨e, he, he'⟩, ⟨u, hu⟩⟩ h
  simp only [nanos, dayNanos] at h ht hu
  obtain ⟨rfl, rfl⟩ : d = e ∧ t = u := by omega
  rfl

instance : LinearOrder PrimitiveDateTime := LinearOrder.lift' nanos nanos_injective

variable {x y : PrimitiveDateTime}

theorem le_iff : x ≤ y ↔ x.nanos ≤ y.nanos := Iff.rfl
theorem lt_iff : x < y ↔ x.nanos < y.nanos := Iff.rfl

/-- The date and time a number of nanoseconds after the first of January of year `1`. -/
def ofNanos (total : ℤ) : Except Fault PrimitiveDateTime := do
  let date ← orFault .outOfRange (Date.ofDay? (total / dayNanos))
  return ⟨date, ⟨(total % dayNanos).toNat, by unfold dayNanos; omega⟩⟩

def addSeconds (x : PrimitiveDateTime) (k : ℤ) : Except Fault PrimitiveDateTime :=
  ofNanos (x.nanos + k * 10 ^ 9)

theorem ofNanos_eq_ok {total : ℤ} : ofNanos total = .ok y ↔ y.nanos = total := by
  rw [ofNanos, bind_eq_ok]
  simp only [orFault_eq_ok, Date.ofDay?_eq_some]
  constructor
  · rintro ⟨d, hd, h⟩
    cases h
    simp only [nanos, hd, dayNanos]
    omega
  · obtain ⟨d, ⟨t, ht⟩⟩ := y
    intro h
    simp only [nanos, dayNanos] at h ht
    have ht' : (total % dayNanos).toNat = t := by simp only [dayNanos]; omega
    refine ⟨d, by simp only [dayNanos]; omega, ?_⟩
    simp only [ht']
    rfl

theorem addSeconds_eq_ok {k : ℤ} :
    x.addSeconds k = .ok y ↔ y.nanos = x.nanos + k * 10 ^ 9 := ofNanos_eq_ok

end PrimitiveDateTime

/-! ## Rules -/

inductive Frequency where
  | secondly
  | minutely
  | hourly
  | daily
  | weekly
  | monthly
  | yearly
deriving Repr, DecidableEq

/-- One `BYDAY` term: a weekday, optionally with an ordinal. -/
structure ByDay where
  ordinal : Option {o : ℤ // -128 ≤ o ∧ o < 128}
  weekday : Weekday
deriving Repr, DecidableEq

/-- A parsed `RRULE`. The parser admits no value outside the bounds of a part. -/
structure RRule where
  freq : Frequency
  interval : {n : ℕ // 0 < n ∧ n < 2 ^ 32}
  count : Option {n : ℕ // n < 2 ^ 32}
  untilTime : Option PrimitiveDateTime
  bySecond : List {n : ℕ // n ≤ 60}
  byMinute : List {n : ℕ // n ≤ 59}
  byHour : List {n : ℕ // n ≤ 23}
  byDay : List ByDay
  byMonthDay : List {n : ℤ // n ≠ 0 ∧ -31 ≤ n ∧ n ≤ 31}
  byYearDay : List {n : ℤ // n ≠ 0 ∧ -366 ≤ n ∧ n ≤ 366}
  byWeekNo : List {n : ℤ // n ≠ 0 ∧ -53 ≤ n ∧ n ≤ 53}
  byMonth : List {n : ℕ // 1 ≤ n ∧ n ≤ 12}
  bySetPos : List {n : ℤ // n ≠ 0 ∧ -366 ≤ n ∧ n ≤ 366}
  wkst : Weekday
deriving Repr, DecidableEq

def RRule.empty : RRule where
  freq := .daily
  interval := ⟨1, by decide⟩
  count := none
  untilTime := none
  bySecond := []
  byMinute := []
  byHour := []
  byDay := []
  byMonthDay := []
  byYearDay := []
  byWeekNo := []
  byMonth := []
  bySetPos := []
  wkst := .monday

def dayOffset (wkst wd : Weekday) : ℕ :=
  (wd.numberDaysFromMonday + 7 - wkst.numberDaysFromMonday) % 7

def startOfWeek (d : Date) (wkst : Weekday) : Except Fault Date :=
  d.addDays (-(dayOffset wkst d.weekday : ℤ))

def mulU32 (a b : ℕ) : Except Fault ℕ := if a * b < 2 ^ 32 then .ok (a * b) else .error .overflow

def asI32 (n : ℕ) : ℤ := if n < 2 ^ 31 then n else n - 2 ^ 32

/-- The month `add` months later. The year fits an `i32`. -/
def addMonths (year : ℤ) (month1 add : ℕ) : Except Fault (ℤ × ℕ) :=
  let months := month1 - 1 + add
  if months < 2 ^ 32 then .ok (year + (months / 12 : ℕ), months % 12 + 1) else .error .overflow

def firstOfMonthDate (y : ℤ) (m : ℕ) : Except Fault Date :=
  orFault .outOfRange (Date.fromCalendarDate y m 1)

/-- The last week of a year; the 28th of December must be representable. -/
def isoWeeksInYear (y : ℤ) : Except Fault ℤ := do
  let _ ← orFault .outOfRange (Date.fromCalendarDate y 12 28)
  return weeksInYear y

def monthdayToDay (y : ℤ) (m : ℕ) (md : ℤ) : Option ℕ :=
  let len := monthLength y m
  if 0 < md then if md.toNat ≤ len then some md.toNat else none
  else if (-md).toNat ≤ len then some (len - (-md).toNat + 1) else none

def weekdaysInMonth (y : ℤ) (m : ℕ) (wd : Weekday) : List Date :=
  ((List.range' 1 (monthLength y m)).filterMap (Date.fromCalendarDate y m)).filter
    fun d => d.weekday = wd

def weekdaysInYear (y : ℤ) (wd : Weekday) : List Date :=
  ((List.range' 1 (daysInYear y).toNat).filterMap fun o => Date.fromOrdinalDate y o).filter
    fun d => d.weekday = wd

/-- The `ordinal`-th element, from the end if negative; the least `i8` cannot be negated. -/
def nth {α : Type} (list : List α) (ordinal : ℤ) : Except Fault (Option α) :=
  if 0 < ordinal then .ok list[ordinal.toNat - 1]?
  else if ordinal < 0 then
    if ordinal = -128 then .error .overflow
    else .ok (if (-ordinal).toNat ≤ list.length then list[list.length - (-ordinal).toNat]? else none)
  else .ok none

/-- The dates of a `BYDAY` term among those with its weekday. -/
def ByDay.dates (all : Weekday → List Date) (b : ByDay) : Except Fault (List Date) :=
  match b.ordinal with
  | none => .ok (all b.weekday)
  | some o => Option.toList <$> nth (all b.weekday) o.1

/-- The values of a time part, or the one of the start. -/
def orDefault (values : List ℕ) (value : ℕ) : List ℕ := if values = [] then [value] else values

def sorted (set : List PrimitiveDateTime) : List PrimitiveDateTime := (SortedSet.ofList set).elems

def selectSetPos (set : List PrimitiveDateTime) (positions : List ℤ) : List PrimitiveDateTime :=
  sorted (positions.filterMap fun p =>
    if 0 < p then set[p.toNat - 1]?
    else if (-p).toNat ≤ set.length then set[set.length - (-p).toNat]? else none)

namespace RRule

variable (r : RRule)

def hours : List ℕ := r.byHour.map Subtype.val
def minutes : List ℕ := r.byMinute.map Subtype.val
def seconds : List ℕ := r.bySecond.map Subtype.val
def months : List ℕ := r.byMonth.map Subtype.val

def monthOk (m : ℕ) : Bool := r.months = [] || m ∈ r.months

def yearDayOk (d : Date) : Bool :=
  r.byYearDay.any fun yd => yd.1 = d.ordinal || yd.1 = d.ordinal - daysInYear d.year - 1

/-- A date has one of the weekdays, if there are any. -/
def weekdayOk (d : Date) : Bool := r.byDay = [] || r.byDay.any fun b => b.weekday = d.weekday

def dateLimitsOk (d : Date) : Bool :=
  r.monthOk d.month
    && (r.byMonthDay = [] ||
      r.byMonthDay.any fun md => monthdayToDay d.year d.month md.1 = some d.dayOfMonth)
    && (r.byYearDay = [] || r.yearDayOk d)
    && r.weekdayOk d

def matchingMonthday (y : ℤ) (m : ℕ) (md : ℤ) : Option Date := do
  let day ← monthdayToDay y m md
  let d ← Date.fromCalendarDate y m day
  if r.weekdayOk d then some d else none

def timesOfDay (default : Time) : List Time :=
  (orDefault r.hours default.hour).flatMap fun h =>
    (orDefault r.minutes default.minute).flatMap fun m =>
      (orDefault r.seconds default.second).filterMap fun s => Time.fromHms h m (min s 59)

variable (start : Date)

def dailyDates (n : ℕ) : Except Fault (List Date) := do
  let date ← start.addDays (n * r.interval : ℕ)
  return if r.dateLimitsOk date then [date] else []

def weekdays : List Weekday :=
  if r.byDay = [] then [start.weekday] else r.byDay.map ByDay.weekday

def weekStart (n : ℕ) : Except Fault Date := do
  let week0 ← startOfWeek start r.wkst
  week0.addDays (7 * (n * r.interval : ℕ))

def weeklyDates (n : ℕ) : Except Fault (List Date) := do
  let week ← r.weekStart start n
  let dates ← (r.weekdays start).mapM fun wd => week.addDays (dayOffset r.wkst wd)
  return dates.filter fun d => r.monthOk d.month

/-- The dates of one month, of which the days are given by `BYMONTHDAY`, by `BYDAY` or by the
start. -/
def monthDates (y : ℤ) (m startDay : ℕ) : Except Fault (List Date) :=
  if r.byMonthDay ≠ [] then .ok (r.byMonthDay.filterMap fun md => r.matchingMonthday y m md.1)
  else if r.byDay ≠ [] then concatMap (ByDay.dates (weekdaysInMonth y m)) r.byDay
  else .ok (Date.fromCalendarDate y m startDay).toList

def periodMonth (n : ℕ) : Except Fault (ℤ × ℕ) := do
  addMonths start.year start.month (← mulU32 n r.interval)

def monthlyDates (n : ℕ) : Except Fault (List Date) := do
  let (y, m) ← r.periodMonth start n
  if r.monthOk m then r.monthDates y m start.dayOfMonth else .ok []

def periodYear (n : ℕ) : Except Fault ℤ := do
  let step ← mulU32 n r.interval
  let y := start.year + asI32 step
  if -2 ^ 31 ≤ y ∧ y < 2 ^ 31 then .ok y else .error .overflow

def yearDayDates (y : ℤ) : List Date :=
  r.byYearDay.filterMap fun yd =>
    Date.fromOrdinalDate y (if 0 < yd.1 then yd.1 else daysInYear y + yd.1 + 1)

def isoWeekdays : List Weekday := if r.byDay = [] then Weekday.all else r.byDay.map ByDay.weekday

def weekNoDates (y : ℤ) : Except Fault (List Date) := do
  let maxWeek ← isoWeeksInYear y
  concatMap (fun wn => concatMap (fun wd => Option.toList <$>
    Date.fromIsoWeekDate y (if 0 < wn.1 then wn.1 else maxWeek + wn.1 + 1) wd) r.isoWeekdays)
    r.byWeekNo

def yearMonths : List ℕ :=
  if r.byMonth ≠ [] then r.months
  else if r.byMonthDay ≠ [] ∨ r.byDay.any (fun b => b.ordinal.isNone) then List.range' 1 12
  else [start.month]

def monthDrivenDates (y : ℤ) : Except Fault (List Date) :=
  if r.byMonth = [] ∧ r.byDay.any (fun b => b.ordinal.isSome) then
    concatMap (ByDay.dates (weekdaysInYear y)) r.byDay
  else concatMap (fun m => r.monthDates y m start.dayOfMonth) (r.yearMonths start)

def yearDates (y : ℤ) : Except Fault (List Date) :=
  if r.byYearDay ≠ [] then .ok (r.yearDayDates y)
  else if r.byWeekNo ≠ [] then r.weekNoDates y
  else r.monthDrivenDates start y

def yearlyDates (n : ℕ) : Except Fault (List Date) := do
  let dates ← r.yearDates start (← r.periodYear start n)
  return dates.filter fun d => r.monthOk d.month

def periodDates (n : ℕ) : Except Fault (List Date) :=
  match r.freq with
  | .weekly => r.weeklyDates start n
  | .monthly => r.monthlyDates start n
  | .yearly => r.yearlyDates start n
  | _ => r.dailyDates start n

/-- The seconds of the unit of a frequency below the day. -/
def unit : ℕ :=
  match r.freq with
  | .hourly => 3600
  | .minutely => 60
  | _ => 1

variable (dtstart : PrimitiveDateTime)

def subdailyBase (n : ℕ) : Except Fault PrimitiveDateTime :=
  dtstart.addSeconds ((n * r.interval : ℕ) * r.unit)

/-- The minutes of an hour or, for the finer frequencies, the minute of the base if it is allowed. -/
def subdailyMinutes (t : Time) : List ℕ :=
  if r.freq = .hourly then orDefault r.minutes t.minute
  else if r.minutes = [] ∨ t.minute ∈ r.minutes then [t.minute] else []

def subdailySeconds (t : Time) : List ℕ :=
  if r.freq = .secondly then
    if r.seconds = [] ∨ t.second ∈ r.seconds then [t.second] else []
  else orDefault r.seconds t.second

def subdailySet (n : ℕ) : Except Fault (List PrimitiveDateTime) := do
  let base ← r.subdailyBase dtstart n
  if r.dateLimitsOk base.date ∧ (r.hours = [] ∨ base.time.hour ∈ r.hours) then
    return (r.subdailyMinutes base.time).flatMap fun m =>
      (r.subdailySeconds base.time).filterMap fun s =>
        (Time.fromHms base.time.hour m (min s 59)).map (PrimitiveDateTime.mk base.date)
  else return []

def subdaily : Bool := r.freq = .secondly || r.freq = .minutely || r.freq = .hourly

/-- The candidates of a period, by frequency. -/
def periodSet (n : ℕ) : Except Fault (List PrimitiveDateTime) :=
  if r.subdaily then r.subdailySet dtstart n
  else do
    let dates ← r.periodDates dtstart.date n
    return dates.flatMap fun d => (r.timesOfDay dtstart.time).map (PrimitiveDateTime.mk d)

/-- What is left of a period: the selected positions from the start on. -/
def selected (set : List PrimitiveDateTime) : List PrimitiveDateTime :=
  let set := sorted set
  let set := if r.bySetPos = [] then set else selectSetPos set (r.bySetPos.map Subtype.val)
  set.filter fun dt => dtstart ≤ dt

/-- Period `n` begins after the window. -/
def periodStartAfter (n : ℕ) (hi : PrimitiveDateTime) : Except Fault Bool :=
  match r.freq with
  | .daily => do return hi.date.day < (← dtstart.date.addDays (n * r.interval : ℕ)).day
  | .weekly => do return hi.date.day < (← r.weekStart dtstart.date n).day
  | .monthly => do
    let (y, m) ← r.periodMonth dtstart.date n
    return hi.date.day < (← firstOfMonthDate y m).day
  | .yearly => do
    let y ← r.periodYear dtstart.date n
    return (Date.fromCalendarDate y 1 1).all fun d => hi.date.day < d.day
  | _ => do return hi < (← r.subdailyBase dtstart n)

/-! ## The period loop -/

/-- How the elements of a period leave the loop. -/
inductive Flow where
  | stop (out : List PrimitiveDateTime)
  | next (emitted : ℕ) (out : List PrimitiveDateTime)
deriving Repr, DecidableEq

/-- A bound of the rule is met: `dt` is past `UNTIL`, or `COUNT` elements have been counted. -/
def exhausted (emitted : ℕ) (dt : PrimitiveDateTime) : Bool :=
  (r.untilTime.any fun u => u < dt) || (r.count.any fun c => c.1 ≤ emitted)

/-- Keep an element that is not before the window. -/
def keep (lo dt : PrimitiveDateTime) (out : List PrimitiveDateTime) : List PrimitiveDateTime :=
  if lo ≤ dt then out ++ [dt] else out

def scan (lo hi : PrimitiveDateTime) :
    List PrimitiveDateTime → ℕ → List PrimitiveDateTime → Except Fault Flow
  | [], emitted, out => .ok (.next emitted out)
  | dt :: set, emitted, out =>
    if r.exhausted emitted dt then .ok (.stop out)
    else if 2 ^ 32 ≤ emitted + 1 then .error .overflow
    else if hi ≤ dt then .ok (.stop out)
    else scan lo hi set (emitted + 1) (keep lo dt out)

def periods (dtstart lo hi : PrimitiveDateTime) :
    ℕ → ℕ → ℕ → List PrimitiveDateTime → Except Fault (List PrimitiveDateTime)
  | 0, _, _, out => .ok out
  | fuel + 1, n, emitted, out => do
    let set ← r.periodSet dtstart n
    match ← r.scan lo hi (r.selected dtstart set) emitted out with
    | .stop out => return out
    | .next emitted out =>
      if ← r.periodStartAfter dtstart n hi then return out
      else periods dtstart lo hi fuel (n + 1) emitted out

def maxPeriods : ℕ := 1000000

/-- The occurrences in the half-open window from `lo` to `hi`, on or after `dtstart`. -/
def expand (dtstart lo hi : PrimitiveDateTime) : Except Fault (List PrimitiveDateTime) :=
  r.periods dtstart lo hi maxPeriods 0 0 []

end RRule

end UldrenLoom.Rrule
