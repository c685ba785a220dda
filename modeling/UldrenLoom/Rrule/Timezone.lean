import UldrenLoom.Lib.Timeline
import UldrenLoom.Rrule.Parse
import UldrenLoom.Rrule.Window

/-!
# The offset of a timezone

A `VTIMEZONE` is a set of observances, each an offset change that recurs by its own rule.

* **`right_iff`**: the offset is that of a latest transition exactly when the one in effect in the
  window has the offset of one.
-/

namespace UldrenLoom.Rrule

open Fallible Calendar PrimitiveDateTime

/-- One `STANDARD` or `DAYLIGHT` observance; the offsets are in seconds. -/
structure Observance where
  dtstart : PrimitiveDateTime
  offsetFrom : ℤ
  offsetTo : ℤ
  rrule : Option RRule
  rdates : List PrimitiveDateTime
deriving Repr, DecidableEq

structure VTimeZone where
  tzid : List Char
  observances : List Observance
deriving Repr, DecidableEq

/-! ## Parsing -/

def parseOffset (v : List Char) : Option ℤ := do
  let sign : ℤ ← match v.head? with
    | some '+' => some 1
    | some '-' => some (-1)
    | _ => none
  let rest := v.tail
  if (rest.length = 4 ∨ rest.length = 6) ∧ rest.all Char.isDigit then
    let h ← digits (rest.take 2)
    let m ← digits ((rest.drop 2).take 2)
    let s ← if rest.length = 6 then digits (rest.drop 4) else some 0
    return sign * (h * 3600 + m * 60 + s : ℕ)
  else none

def parseDt (v : List Char) : Option PrimitiveDateTime := do
  let (d, t) ← splitOnce 'T' v
  return ⟨← parseDate d, ← parseTime t⟩

/-- An observance as far as it has been read. -/
structure ObservanceBuilder where
  dtstart : Option PrimitiveDateTime
  offsetFrom : Option ℤ
  offsetTo : Option ℤ
  rrule : Option RRule
  rdates : List PrimitiveDateTime

def ObservanceBuilder.default : ObservanceBuilder := ⟨none, none, none, none, []⟩

def ObservanceBuilder.build (b : ObservanceBuilder) : Except Error Observance := do
  let dtstart ← orInvalid "VTIMEZONE" "observance missing DTSTART".toList b.dtstart
  let offsetFrom ← orInvalid "VTIMEZONE" "observance missing TZOFFSETFROM".toList b.offsetFrom
  let offsetTo ← orInvalid "VTIMEZONE" "observance missing TZOFFSETTO".toList b.offsetTo
  return ⟨dtstart, offsetFrom, offsetTo, b.rrule, b.rdates⟩

/-- What has been read of a component. -/
structure Reading where
  tz : VTimeZone
  cur : Option ObservanceBuilder

/-- Change the observance that is being read, if there is one. -/
def Reading.modify (s : Reading) (f : ObservanceBuilder → ObservanceBuilder) : Reading :=
  { s with cur := s.cur.map f }

def isObservance (value : List Char) : Bool :=
  value = "STANDARD".toList || value = "DAYLIGHT".toList

def Reading.property (s : Reading) (name value : List Char) : Except Failure Reading :=
  match String.ofList name with
  | "BEGIN" => .ok (if isObservance value then { s with cur := some .default } else s)
  | "END" =>
    match isObservance value, s.cur with
    | true, some b => do
      let ob ← b.build.mapError .error
      return ⟨{ s.tz with observances := s.tz.observances ++ [ob] }, none⟩
    | _, _ => .ok s
  | "TZID" => .ok { s with tz := { s.tz with tzid := value } }
  | "DTSTART" => .ok (s.modify fun b => { b with dtstart := parseDt value })
  | "TZOFFSETFROM" => .ok (s.modify fun b => { b with offsetFrom := parseOffset value })
  | "TZOFFSETTO" => .ok (s.modify fun b => { b with offsetTo := parseOffset value })
  | "RRULE" =>
    match s.cur with
    | some b => do
      let r ← RRule.parse value
      return { s with cur := some { b with rrule := some r } }
    | none => .ok s
  | "RDATE" => .ok (s.modify fun b =>
      { b with rdates := b.rdates ++ (value.splitOn ',').filterMap parseDt })
  | _ => .ok s

/-- One line; the parameters of a property are dropped. -/
def Reading.line (s : Reading) (raw : List Char) : Except Failure Reading :=
  match splitOnce ':' (trim raw) with
  | none => .ok s
  | some (name, value) => s.property (name.takeWhile fun c => c ≠ ';') value

/-- The lines of a component. -/
def VTimeZone.parse (input : List Char) : Except Failure VTimeZone := do
  let s ← (input.splitOn '\n').foldlM Reading.line ⟨⟨[], []⟩, none⟩
  if s.tz.observances = [] then
    .error (.error (.invalidValue "VTIMEZONE" "no STANDARD/DAYLIGHT observances".toList))
  else return s.tz

/-! ## Transitions -/

/-- The instant of a transition in UTC and the offset after it. -/
abbrev Transition := PrimitiveDateTime × ℤ

namespace Observance

variable (ob : Observance)

def toUtc (wall : PrimitiveDateTime) : Except Fault PrimitiveDateTime :=
  wall.addSeconds (-ob.offsetFrom)

def recurrences (lo hi : PrimitiveDateTime) : Except Fault (List PrimitiveDateTime) :=
  match ob.rrule with
  | some r => r.expand ob.dtstart lo hi
  | none => .ok []

/-- The transitions of an observance: its start, its occurrences in the window, its dates. -/
def transitions (lo hi : PrimitiveDateTime) : Except Fault (List Transition) := do
  let occurrences ← ob.recurrences lo hi
  (ob.dtstart :: occurrences ++ ob.rdates).mapM fun dt => do return (← ob.toUtc dt, ob.offsetTo)

end Observance

namespace VTimeZone

variable (tz : VTimeZone)

def transitions (lo hi : PrimitiveDateTime) : Except Fault (List Transition) :=
  concatMap (fun ob => ob.transitions lo hi) tz.observances

def yearMidnight (y : ℤ) : Except Fault PrimitiveDateTime := do
  return ⟨← orFault .outOfRange (Date.fromCalendarDate y 1 1), Time.midnight⟩

/-- The transitions that are looked at for an instant. -/
def seen (utc : PrimitiveDateTime) : Except Fault (List Transition) := do
  let lo ← yearMidnight (utc.date.year - 2)
  let hi ← yearMidnight (utc.date.year + 2)
  tz.transitions lo hi

def offsetAtUtc (utc : PrimitiveDateTime) : Except Fault ℤ := do
  let trans ← tz.seen utc
  let before := (tz.observances.map Observance.offsetFrom).head?.getD 0
  return ((Timeline.lastAt utc trans).map Prod.snd).getD before

end VTimeZone

/-! ## The whole recurrences -/

/-- A local time at which an observance takes effect. -/
def Observance.Generates (ob : Observance) (wall : PrimitiveDateTime) : Prop :=
  wall = ob.dtstart ∨ (∃ r ∈ ob.rrule, ∃ n i, r.Occurs ob.dtstart n i wall) ∨ wall ∈ ob.rdates

/-- A local time that is looked at for a window: the start, a listed date, or an occurrence of the rule
in the window and in a period the expansion gets to. -/
def Observance.Looked (ob : Observance) (lo hi wall : PrimitiveDateTime) : Prop :=
  wall = ob.dtstart ∨ (∃ r ∈ ob.rrule, lo ≤ wall ∧ wall < hi ∧ ∃ n < RRule.maxPeriods, ∃ i,
    r.Reached ob.dtstart hi n ∧ r.Occurs ob.dtstart n i wall) ∨ wall ∈ ob.rdates

/-- The rule can be expanded up to the end of the window, and what is looked at is representable in
UTC. -/
def Observance.InRange (ob : Observance) (lo hi : PrimitiveDateTime) : Prop :=
  (∀ r ∈ ob.rrule, ∀ n < RRule.maxPeriods, r.Reached ob.dtstart hi n →
    r.StepSafe ob.dtstart hi n) ∧
  ∀ wall, ob.Looked lo hi wall →
    ∃ utc : PrimitiveDateTime, utc.nanos = wall.nanos + -ob.offsetFrom * 10 ^ 9

namespace VTimeZone

variable (tz : VTimeZone) (lo hi u : PrimitiveDateTime)

/-- A transition: its instant in nanoseconds and the offset after it. -/
def Generates (t : ℤ × ℤ) : Prop :=
  ∃ ob ∈ tz.observances, ∃ wall, ob.Generates wall ∧
    t = (wall.nanos + -ob.offsetFrom * 10 ^ 9, ob.offsetTo)

/-- A transition of the `k`-th observance that is looked at for a window. -/
def Looked (k : ℕ) (t : ℤ × ℤ) : Prop :=
  ∃ ob, tz.observances[k]? = some ob ∧ ∃ wall, ob.Looked lo hi wall ∧
    t = (wall.nanos + -ob.offsetFrom * 10 ^ 9, ob.offsetTo)

/-- A transition at or before an instant that none of those looked at is after; of equal instants it
is one of the last observance. -/
def InEffect (s : ℤ × ℤ) : Prop :=
  ∃ k, tz.Looked lo hi k s ∧ s.1 ≤ u.nanos ∧ ∀ k' t, tz.Looked lo hi k' t → t.1 ≤ u.nanos →
    t.1 < s.1 ∨ t.1 = s.1 ∧ k' ≤ k

/-- A transition at or before an instant that none is after. -/
def Latest (t : ℤ × ℤ) : Prop :=
  tz.Generates t ∧ t.1 ≤ u.nanos ∧ ∀ t', tz.Generates t' → t'.1 ≤ u.nanos → t'.1 ≤ t.1

/-- The offset at an instant is that of a latest transition. -/
def Right : Prop := ∃ t, tz.Latest u t ∧ tz.offsetAtUtc u = .ok t.2

end VTimeZone

namespace Observance

variable {ob : Observance} {lo hi wall : PrimitiveDateTime} {trans : List Transition}

theorem mem_recurrences {out : List PrimitiveDateTime} (h : ob.recurrences lo hi = .ok out) :
    wall ∈ ob.dtstart :: out ++ ob.rdates ↔ ob.Looked lo hi wall := by
  rw [Looked, List.mem_append, List.mem_cons, or_assoc]
  refine or_congr_right (or_congr_left ?_)
  unfold recurrences at h
  cases hr : ob.rrule with
  | none =>
    rw [hr] at h
    cases h
    simp
  | some r =>
    rw [hr] at h
    simp only [Option.mem_some_iff, exists_eq_left', RRule.mem_expand h]
    constructor
    · rintro ⟨h1, h2, n, hn, i, ht⟩
      exact ⟨h1, h2, n, hn, i, ht.1, ht.occurs⟩
    · rintro ⟨h1, h2, n, hn, i, hr, ho⟩
      exact ⟨h1, h2, n, hn, i, hr, ho.1, RRule.counted_of_occurs ho h2⟩

theorem returns_transitions : Returns (ob.transitions lo hi) ↔ ob.InRange lo hi := by
  have hrec : Returns (ob.recurrences lo hi) ↔ ∀ r ∈ ob.rrule, ∀ n < RRule.maxPeriods,
      r.Reached ob.dtstart hi n → r.StepSafe ob.dtstart hi n := by
    unfold recurrences
    cases ob.rrule with
    | none => simp [returns_ok]
    | some r => simp [RRule.returns_expand]
  have hwall (wall) : Returns (do return (← ob.toUtc wall, ob.offsetTo) : Except Fault Transition) ↔
      ∃ utc : PrimitiveDateTime, utc.nanos = wall.nanos + -ob.offsetFrom * 10 ^ 9 :=
    returns_bind_pure.trans (exists_congr fun _ => addSeconds_eq_ok)
  rw [transitions, returns_bind, InRange, ← hrec]
  simp only [returns_mapM, hwall]
  constructor
  · rintro ⟨out, hout, h⟩
    exact ⟨⟨out, hout⟩, fun wall hw => h wall ((mem_recurrences hout).mpr hw)⟩
  · rintro ⟨⟨out, hout⟩, h⟩
    exact ⟨out, hout, fun wall hw => h wall ((mem_recurrences hout).mp hw)⟩

theorem exists_looked (h : ob.transitions lo hi = .ok trans) {s : Transition} (hs : s ∈ trans) :
    ∃ wall, ob.Looked lo hi wall ∧
      (s.1.nanos, s.2) = (wall.nanos + -ob.offsetFrom * 10 ^ 9, ob.offsetTo) := by
  obtain ⟨out, hout, h⟩ := of_bind h
  obtain ⟨wall, hw, hs⟩ := mapM_mem h hs
  obtain ⟨utc, hutc, hs⟩ := of_bind hs
  cases hs
  exact ⟨wall, (mem_recurrences hout).mp hw, congrArg (·, ob.offsetTo) (addSeconds_eq_ok.mp hutc)⟩

theorem exists_transition (h : ob.transitions lo hi = .ok trans) (hw : ob.Looked lo hi wall) :
    ∃ s ∈ trans, s.1.nanos = wall.nanos + -ob.offsetFrom * 10 ^ 9 := by
  obtain ⟨out, hout, h⟩ := of_bind h
  obtain ⟨s, hs, hws⟩ := exists_mem_of_mapM h ((mem_recurrences hout).mpr hw)
  obtain ⟨utc, hutc, hws⟩ := of_bind hws
  cases hws
  exact ⟨_, hs, addSeconds_eq_ok.mp hutc⟩

/-- No transition is before all that are looked at. -/
theorem Generates.exists_le (hw : ob.Generates wall) (lo hi : PrimitiveDateTime) :
    ∃ x, ob.Looked lo hi x ∧ x.nanos ≤ wall.nanos := by
  rcases hw with rfl | ⟨r, hr, n, i, hocc, -⟩ | hw
  · exact ⟨_, .inl rfl, le_rfl⟩
  · exact ⟨_, .inl rfl, (RRule.occurrences_mem (List.mem_of_getElem? hocc)).1⟩
  · exact ⟨_, .inr (.inr hw), le_rfl⟩

end Observance

/-- The change in effect of lists one after the other is in the last one that has one as late. -/
theorem lastOf_concatMap {α : Type} {f : α → Except Fault (List Transition)} {xs : List α}
    {trans : List Transition} {u : PrimitiveDateTime} {s : Transition}
    (h : concatMap f xs = .ok trans) (hs : Timeline.LastOf u trans s) :
    ∃ (k : ℕ) (x : α) (l : List Transition), xs[k]? = some x ∧ f x = .ok l ∧ s ∈ l ∧
      ∀ (k' : ℕ) x' l', xs[k']? = some x' → f x' = .ok l' →
        ∀ t ∈ l', t.1 ≤ u → t.1 < s.1 ∨ t.1 = s.1 ∧ k' ≤ k := by
  induction xs generalizing trans with
  | nil =>
    cases h
    cases hs.mem
  | cons x xs ih =>
    obtain ⟨l, hl, h⟩ := of_bind h
    obtain ⟨rest, hrest, h⟩ := of_bind h
    cases h
    -- the first list has nothing later than the change, whichever list that is in
    have hfirst : ∀ t ∈ l, t.1 ≤ u → t.1 < s.1 ∨ t.1 = s.1 := fun t ht htu =>
      (hs.max (List.mem_append_left _ ht) htu).lt_or_eq
    rcases hs.of_append with ⟨hsl, hlt⟩ | hs'
    · refine ⟨0, x, l, rfl, hl, hsl, fun k' x' l' hx' hl' t ht htu => ?_⟩
      cases k' with
      | zero =>
        cases hx'
        cases hl.symm.trans hl'
        exact (hfirst t ht htu).imp_right fun he => ⟨he, le_rfl⟩
      | succ k' =>
        obtain ⟨l'', hl'', hsub⟩ := exists_concatMap hrest (List.mem_of_getElem? hx')
        cases hl'.symm.trans hl''
        exact .inl (hlt t (hsub t ht) htu)
    · obtain ⟨k, y, m, hy, hm, hsm, hmax⟩ := ih hrest hs'
      refine ⟨k + 1, y, m, hy, hm, hsm, fun k' x' l' hx' hl' t ht htu => ?_⟩
      cases k' with
      | zero =>
        cases hx'
        cases hl.symm.trans hl'
        exact (hfirst t ht htu).imp_right fun he => ⟨he, Nat.zero_le _⟩
      | succ k' =>
        exact (hmax k' x' l' hx' hl' t ht htu).imp_right fun he => ⟨he.1, Nat.succ_le_succ he.2⟩

namespace VTimeZone

variable {tz : VTimeZone} {lo hi u : PrimitiveDateTime} {trans : List Transition}

theorem inEffect_of_lastOf (h : tz.transitions lo hi = .ok trans) {s : Transition}
    (hs : Timeline.LastOf u trans s) : tz.InEffect lo hi u (s.1.nanos, s.2) := by
  obtain ⟨k, ob, l, hob, hl, hsl, hmax⟩ := lastOf_concatMap h hs
  refine ⟨k, ⟨ob, hob, Observance.exists_looked hl hsl⟩, hs.le, ?_⟩
  rintro k' t ⟨ob', hob', wall, hw, rfl⟩ htu
  obtain ⟨l', hl', -⟩ := exists_concatMap h (List.mem_of_getElem? hob')
  obtain ⟨t, ht, hwall⟩ := Observance.exists_transition hl' hw
  simp only [← hwall] at htu ⊢
  exact (hmax k' ob' l' hob' hl' t ht htu).imp_right fun he => ⟨congrArg nanos he.1, he.2⟩

theorem InEffect.snd_eq {s t : ℤ × ℤ} (hs : tz.InEffect lo hi u s) (ht : tz.InEffect lo hi u t) :
    s.2 = t.2 := by
  obtain ⟨k, hk, hku, hkmax⟩ := hs
  obtain ⟨l, hl, hlu, hlmax⟩ := ht
  have h1 := hkmax l t hl hlu
  have h2 := hlmax k s hk hku
  obtain rfl : k = l := by omega
  obtain ⟨ob, hob, _, -, rfl⟩ := hk
  obtain ⟨ob', hob', _, -, rfl⟩ := hl
  cases hob.symm.trans hob'
  rfl

theorem offsetAtUtc_eq_ok {t : ℤ × ℤ} (ht : tz.Latest u t) : tz.offsetAtUtc u = .ok t.2 ↔
    ∃ lo hi, yearMidnight (u.date.year - 2) = .ok lo ∧ yearMidnight (u.date.year + 2) = .ok hi ∧
      (∀ ob ∈ tz.observances, ob.InRange lo hi) ∧ ∃ s, tz.InEffect lo hi u s ∧ s.2 = t.2 := by
  rw [offsetAtUtc, bind_eq_ok]
  simp only [seen, bind_eq_ok, ← Observance.returns_transitions, ← returns_concatMap]
  -- a transition is looked at, as the latest one is not before all of them
  have hsome {lo hi trans} (h : tz.transitions lo hi = .ok trans) :
      ∃ s, Timeline.lastAt u trans = some s := by
    refine Option.ne_none_iff_exists'.mp fun hnone => ?_
    obtain ⟨ob, hob, wall, hw, rfl⟩ := ht.1
    obtain ⟨x, hx, hxw⟩ := hw.exists_le lo hi
    obtain ⟨l, hl, hsub⟩ := exists_concatMap h hob
    obtain ⟨s, hs, hsx⟩ := Observance.exists_transition hl hx
    have hlate := lt_iff.mp (Timeline.lastAt_eq_none.mp hnone s (hsub s hs))
    have hle := ht.2.1
    dsimp only at hle
    omega
  constructor
  · rintro ⟨trans, ⟨lo, hlo, hi, hhi, h⟩, hoff⟩
    obtain ⟨s, hs⟩ := hsome h
    rw [hs] at hoff
    exact ⟨lo, hi, hlo, hhi, ⟨trans, h⟩, _, inEffect_of_lastOf h (Timeline.lastAt_eq_some.mp hs),
      Except.ok.inj hoff⟩
  · rintro ⟨lo, hi, hlo, hhi, ⟨trans, h⟩, s, hs, hst⟩
    refine ⟨trans, ⟨lo, hlo, hi, hhi, h⟩, ?_⟩
    obtain ⟨s', hs'⟩ := hsome h
    have := (inEffect_of_lastOf h (Timeline.lastAt_eq_some.mp hs')).snd_eq hs
    rw [hs', ← hst, ← this]
    rfl

/-- **When the offset is right**: the transition in effect among those of the window from two years
before to two years after, which are all in range, has the offset of a latest one. -/
theorem right_iff (tz : VTimeZone) (u : PrimitiveDateTime) : tz.Right u ↔
    ∃ lo hi, yearMidnight (u.date.year - 2) = .ok lo ∧ yearMidnight (u.date.year + 2) = .ok hi ∧
      (∀ ob ∈ tz.observances, ob.InRange lo hi) ∧
        ∃ s t, tz.InEffect lo hi u s ∧ tz.Latest u t ∧ s.2 = t.2 := by
  constructor
  · rintro ⟨t, ht, h⟩
    obtain ⟨lo, hi, hlo, hhi, hr, s, hs, hst⟩ := (offsetAtUtc_eq_ok ht).mp h
    exact ⟨lo, hi, hlo, hhi, hr, s, t, hs, ht, hst⟩
  · rintro ⟨lo, hi, hlo, hhi, hr, s, t, hs, ht, hst⟩
    exact ⟨t, ht, (offsetAtUtc_eq_ok ht).mpr ⟨lo, hi, hlo, hhi, hr, s, hs, hst⟩⟩

end VTimeZone

namespace Sample

/-- Two observances whose rules ended in 1993 and 1994. -/
def endedZone : List Char :=
  ("BEGIN:VTIMEZONE\nTZID:Ended\n" ++
    "BEGIN:DAYLIGHT\nDTSTART:19910407T020000\nTZOFFSETFROM:-0500\nTZOFFSETTO:-0400\n" ++
    "RRULE:FREQ=YEARLY;UNTIL=19930407T020000\nEND:DAYLIGHT\n" ++
    "BEGIN:STANDARD\nDTSTART:19901028T020000\nTZOFFSETFROM:-0400\nTZOFFSETTO:-0500\n" ++
    "RRULE:FREQ=YEARLY;UNTIL=19941028T020000\nEND:STANDARD\nEND:VTIMEZONE\n").toList

def night (d : Fin 738885) : PrimitiveDateTime :=
  ⟨⟨d, by rw [minDay_eq]; omega, by rw [endDay_eq]; omega⟩, ⟨7200 * 10 ^ 9, by decide⟩⟩

def yearlyUntil (dt : PrimitiveDateTime) : RRule :=
  { RRule.empty with freq := .yearly, untilTime := some dt }

def daylight : Observance := ⟨night 726928, -18000, -14400, some (yearlyUntil (night 727659)), []⟩

def standard : Observance := ⟨night 726767, -14400, -18000, some (yearlyUntil (night 728228)), []⟩

def ended : VTimeZone := ⟨"Ended".toList, [daylight, standard]⟩

theorem night_nanos (d : Fin 738885) : (night d).nanos = d * dayNanos + 7200 * 10 ^ 9 := by
  simp [PrimitiveDateTime.nanos, night]

theorem le_of_daylight {wall : PrimitiveDateTime} (h : daylight.Generates wall) :
    wall.nanos ≤ (night 727659).nanos := by
  rcases h with rfl | ⟨r, hr, n, i, -, hex⟩ | h
  · rw [show daylight.dtstart = night 726928 from rfl, night_nanos, night_nanos, dayNanos]
    decide
  · cases hr
    rw [RRule.exhausted, Bool.or_eq_true, not_or] at hex
    exact not_lt.mp fun hlt => hex.1 (decide_eq_true (lt_iff.mpr hlt))
  · cases h

theorem standard_generates : standard.Generates (night 728228) :=
  .inr (.inl ⟨yearlyUntil (night 728228), rfl, 4, 0, by decide +kernel, by decide +kernel⟩)

/-- In 2020 the offset is that of the start of the daylight observance, not of the last transition. -/
theorem ended_not_right : VTimeZone.parse endedZone = .ok ended ∧
    (∃ t, ended.Generates t ∧ t.1 ≤ (night 737576).nanos) ∧ ¬ ended.Right (night 737576) := by
  have hlate : ended.Generates ((night 728228).nanos + - -14400 * 10 ^ 9, -18000) :=
    ⟨standard, by simp [ended], _, standard_generates, rfl⟩
  have hle : (night 728228).nanos + - -14400 * 10 ^ 9 ≤ (night 737576).nanos := by
    rw [night_nanos, night_nanos, dayNanos]
    decide
  have hoff : ended.offsetAtUtc (night 737576) = .ok (-14400) := by decide +kernel
  refine ⟨by decide +kernel, ⟨_, hlate, hle⟩, ?_⟩
  rintro ⟨t, ⟨⟨ob, hob, wall, hw, rfl⟩, -, hmax⟩, h⟩
  rw [hoff] at h
  rcases List.mem_pair.mp hob with rfl | rfl
  · have hwall := le_of_daylight hw
    have hlast := hmax _ hlate hle
    have hfrom : daylight.offsetFrom = -18000 := rfl
    dsimp only at hlast
    rw [hfrom] at hlast
    have h93 : (night 727659).nanos = 727659 * dayNanos + 7200 * 10 ^ 9 := night_nanos _
    have h94 : (night 728228).nanos = 728228 * dayNanos + 7200 * 10 ^ 9 := night_nanos _
    rw [dayNanos] at h93 h94
    omega
  · cases h

end Sample

end UldrenLoom.Rrule
