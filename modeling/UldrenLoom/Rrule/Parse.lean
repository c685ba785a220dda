import UldrenLoom.Lib.Utf8
import UldrenLoom.Rrule.Safety

/-!
# Parsing rules

* **`panicFree_iff`**: parsing a text and expanding the rule it gives return without a panic exactly
  when the terms are sliced between characters and every period reached is in range.
-/

namespace UldrenLoom.Rrule

open ByteString Fallible Calendar List

/-- Parse errors. -/
inductive Error where
  | empty
  | missingFreq
  | malformedPart (part : List Char)
  | unknownKey (key : List Char)
  | invalidValue (key : String) (value : List Char)
  | unsupportedFreq (value : List Char)
deriving Repr, DecidableEq

/-- How parsing ends without a rule. -/
inductive Failure where
  | error (e : Error)
  | panic (f : Fault)
deriving Repr, DecidableEq

/-! ## Text -/

def isWhitespace (c : Char) : Bool :=
  let n := c.toNat
  (0x09 ≤ n && n ≤ 0x0d) || n = 0x20 || n = 0x85 || n = 0xa0 || n = 0x1680
    || (0x2000 ≤ n && n ≤ 0x200a) || n = 0x2028 || n = 0x2029 || n = 0x202f || n = 0x205f || n = 0x3000

def trim (s : List Char) : List Char :=
  ((s.dropWhile isWhitespace).reverse.dropWhile isWhitespace).reverse

def splitOnce (sep : Char) : List Char → Option (List Char × List Char)
  | [] => none
  | c :: cs => if c = sep then some ([], cs) else (splitOnce sep cs).map fun p => (c :: p.1, p.2)

def digits (s : List Char) : Option ℕ :=
  if s ≠ [] ∧ s.all Char.isDigit then some (s.foldl (fun n c => 10 * n + (c.toNat - 48)) 0) else none

/-- An unsigned number below `bound`; a sign may precede it. -/
def parseUnsigned (bound : ℕ) (s : List Char) : Option ℕ := do
  let n ← digits (if s.head? = some '+' then s.tail else s)
  if n < bound then some n else none

/-- A signed number from `-bound` up to `bound`, exclusive. -/
def parseSigned (bound : ℤ) (s : List Char) : Option ℤ := do
  let n ← digits (if s.head? = some '+' ∨ s.head? = some '-' then s.tail else s)
  let z : ℤ := if s.head? = some '-' then -n else n
  if -bound ≤ z ∧ z < bound then some z else none

def parseWeekday (s : List Char) : Option Weekday :=
  match String.ofList s with
  | "MO" => some .monday
  | "TU" => some .tuesday
  | "WE" => some .wednesday
  | "TH" => some .thursday
  | "FR" => some .friday
  | "SA" => some .saturday
  | "SU" => some .sunday
  | _ => none

def parseDate (s : List Char) : Option Date := do
  if s.length = 8 ∧ s.all Char.isDigit then
    let year ← digits (s.take 4)
    let month ← digits ((s.drop 4).take 2)
    let day ← digits (s.drop 6)
    if 1 ≤ month ∧ month ≤ 12 then Date.fromCalendarDate year month day else none
  else none

def parseTime (s : List Char) : Option Time := do
  if s.length = 6 ∧ s.all Char.isDigit then
    Time.fromHms (← digits (s.take 2)) (← digits ((s.drop 2).take 2)) (← digits (s.drop 4))
  else none

/-- `YYYYMMDD[THHMMSS[Z]]`; a bare date is its last second if `endOfDay`. -/
def parseDatetime (v : List Char) (endOfDay : Bool) : Option PrimitiveDateTime := do
  let core := if v.getLast? = some 'Z' then v.dropLast else v
  match splitOnce 'T' core with
  | some (d, t) => return ⟨← parseDate d, ← parseTime t⟩
  | none => return ⟨← parseDate core, ← if endOfDay then Time.fromHms 23 59 59 else some Time.midnight⟩

/-! ## The parts of a rule -/

def orInvalid {α : Type} (key : String) (value : List Char) : Option α → Except Error α
  | some a => .ok a
  | none => .error (.invalidValue key value)

/-- A comma-separated list of numbers, each within the bounds of the part. -/
def parseBounded {α : Type} (P : α → Prop) [DecidablePred P] (read : List Char → Option α) (key : String)
    (value : List Char) : Except Error (List {a : α // P a}) := do
  let numbers ← (value.splitOn ',').mapM fun s => orInvalid key s (read s)
  numbers.mapM fun a => if h : P a then .ok ⟨a, h⟩ else .error (.invalidValue key value)

def parseFreq (value : List Char) : Except Error Frequency :=
  match String.ofList value with
  | "SECONDLY" => .ok .secondly
  | "MINUTELY" => .ok .minutely
  | "HOURLY" => .ok .hourly
  | "DAILY" => .ok .daily
  | "WEEKLY" => .ok .weekly
  | "MONTHLY" => .ok .monthly
  | "YEARLY" => .ok .yearly
  | _ => .error (.unsupportedFreq value)

/-- What has been read of a rule; its frequency is set at the end. -/
abbrev Draft := Option Frequency × RRule

/-- Every part but `BYDAY`. -/
def applyField (key value : List Char) (d : Draft) : Except Error Draft :=
  match String.ofList key with
  | "FREQ" => do return (some (← parseFreq value), d.2)
  | "INTERVAL" => do
    let n ← orInvalid "INTERVAL" value (parseUnsigned (2 ^ 32) value)
    if h : 0 < n ∧ n < 2 ^ 32 then return (d.1, { d.2 with interval := ⟨n, h⟩ })
    else .error (.invalidValue "INTERVAL" value)
  | "COUNT" => do
    let n ← orInvalid "COUNT" value (parseUnsigned (2 ^ 32) value)
    if h : n < 2 ^ 32 then return (d.1, { d.2 with count := some ⟨n, h⟩ })
    else .error (.invalidValue "COUNT" value)
  | "UNTIL" => do
    let dt ← orInvalid "UNTIL" value (parseDatetime value true)
    return (d.1, { d.2 with untilTime := some dt })
  | "BYSECOND" => do
    return (d.1, { d.2 with bySecond := ← parseBounded _ (parseUnsigned 256) "BYSECOND" value })
  | "BYMINUTE" => do
    return (d.1, { d.2 with byMinute := ← parseBounded _ (parseUnsigned 256) "BYMINUTE" value })
  | "BYHOUR" => do
    return (d.1, { d.2 with byHour := ← parseBounded _ (parseUnsigned 256) "BYHOUR" value })
  | "BYMONTHDAY" => do
    return (d.1, { d.2 with byMonthDay := ← parseBounded _ (parseSigned 128) "BYMONTHDAY" value })
  | "BYYEARDAY" => do
    return (d.1, { d.2 with byYearDay := ← parseBounded _ (parseSigned 32768) "BYYEARDAY" value })
  | "BYWEEKNO" => do
    return (d.1, { d.2 with byWeekNo := ← parseBounded _ (parseSigned 128) "BYWEEKNO" value })
  | "BYMONTH" => do
    return (d.1, { d.2 with byMonth := ← parseBounded _ (parseUnsigned 256) "BYMONTH" value })
  | "BYSETPOS" => do
    return (d.1, { d.2 with bySetPos := ← parseBounded _ (parseSigned 32768) "BYSETPOS" value })
  | "WKST" => do return (d.1, { d.2 with wkst := ← orInvalid "WKST" value (parseWeekday value) })
  | _ => .error (.unknownKey key)

def byDayOf (term ord wd : List Char) : Except Error ByDay := do
  let weekday ← orInvalid "BYDAY" term (parseWeekday wd)
  if ord = [] then return ⟨none, weekday⟩
  else
    let o ← orInvalid "BYDAY" term (parseSigned 128 ord)
    if h : -128 ≤ o ∧ o < 128 then return ⟨some ⟨o, h⟩, weekday⟩
    else .error (.invalidValue "BYDAY" term)

/-- One `BYDAY` term: the last two bytes are the weekday. -/
def byDayTerm (term : List Char) : Except Failure ByDay :=
  match splitAtBytes (byteLen term - 2) term with
  | none => .error (.panic .charBoundary)
  | some (ord, wd) => (byDayOf term ord wd).mapError .error

def byDayTerms (value : List Char) : Except Failure (List ByDay) := (value.splitOn ',').mapM byDayTerm

/-- One `KEY=VALUE` part. `BYDAY` adds to what is there. -/
def applyPart (d : Draft) (part : List Char) : Except Failure Draft :=
  match splitOnce '=' part with
  | none => .error (.error (.malformedPart part))
  | some (key, value) =>
    if key = "BYDAY".toList then do
      return (d.1, { d.2 with byDay := d.2.byDay ++ (← byDayTerms value) })
    else (applyField key value d).mapError .error

def ruleBody (input : List Char) : List Char :=
  ((trim input).dropPrefix? "RRULE:".toList).getD (trim input)

def ruleParts (input : List Char) : List (List Char) := (ruleBody input).splitOn ';'

/-- The text of an `RRULE`, with its errors. -/
def RRule.parse (input : List Char) : Except Failure RRule :=
  if ruleBody input = [] then .error (.error .empty)
  else do
    let d ← (ruleParts input).foldlM applyPart (none, .empty)
    match d.1 with
    | some f => return { d.2 with freq := f }
    | none => .error (.error .missingFreq)

/-! ## Slices -/

/-- The last two bytes of a text are whole characters, or it has fewer than two. -/
def OnBoundary (term : List Char) : Prop :=
  byteLen term < 2 ∨ ∃ a b, term = a ++ b ∧ byteLen b = 2

theorem splitAtBytes_eq_none {term : List Char} :
    splitAtBytes (byteLen term - 2) term = none ↔ ¬ OnBoundary term := by
  rw [← not_iff_not, not_not, ← Ne, Option.ne_none_iff_exists']
  constructor
  · rintro ⟨⟨a, b⟩, h⟩
    obtain ⟨rfl, hk⟩ := splitAtBytes_eq_some.mp h
    rw [OnBoundary, byteLen_append] at *
    by_cases hlt : byteLen a + byteLen b < 2
    · exact .inl hlt
    · exact .inr ⟨a, b, rfl, by omega⟩
  · rintro (h | ⟨a, b, rfl, h⟩)
    · exact ⟨([], term), splitAtBytes_eq_some.mpr ⟨rfl, by simp only [byteLen] at *; simp; omega⟩⟩
    · refine ⟨(a, b), splitAtBytes_eq_some.mpr ⟨rfl, ?_⟩⟩
      rw [byteLen_append]
      omega

/-! ## Panics of the parser -/

def Panics {α : Type} (x : Except Failure α) : Prop := ∃ f, x = .error (.panic f)

section Panics

variable {α β : Type}

theorem panics_bind {x : Except Failure α} {f : α → Except Failure β} :
    Panics (x >>= f) ↔ Panics x ∨ ∃ a, x = .ok a ∧ Panics (f a) := by
  cases x with
  | error e => simp [Panics]
  | ok a => simp [Panics]

theorem not_panics_ok (a : α) : ¬ Panics (.ok a : Except Failure α) := fun ⟨_, h⟩ => nomatch h

theorem not_panics_mapError (x : Except Error α) : ¬ Panics (x.mapError Failure.error) := by
  rintro ⟨f, h⟩
  cases x <;> cases h

theorem panics_foldlM {f : β → α → Except Failure β} {b : β} {xs : List α} :
    Panics (xs.foldlM f b) ↔
      ∃ l x l' c, xs = l ++ x :: l' ∧ l.foldlM f b = .ok c ∧ Panics (f c x) := by
  induction xs generalizing b with
  | nil =>
    refine ⟨fun h => absurd h (not_panics_ok b), ?_⟩
    rintro ⟨l, x, l', c, h, -⟩
    cases l <;> cases h
  | cons y ys ih =>
    rw [foldlM_cons, panics_bind]
    constructor
    · rintro (h | ⟨c, hc, h⟩)
      · exact ⟨[], y, ys, b, rfl, rfl, h⟩
      · obtain ⟨l, x, l', d, rfl, hl, hx⟩ := ih.mp h
        exact ⟨y :: l, x, l', d, rfl, by rw [foldlM_cons, hc, ok_bind, hl], hx⟩
    · rintro ⟨l, x, l', d, h, hl, hx⟩
      cases l with
      | nil =>
        cases h
        cases hl
        exact .inl hx
      | cons z l =>
        rw [cons_append, List.cons.injEq] at h
        obtain ⟨rfl, rfl⟩ := h
        rw [foldlM_cons] at hl
        obtain ⟨c, hc, hl⟩ := of_bind hl
        exact .inr ⟨c, hc, ih.mpr ⟨l, x, l', d, rfl, hl, hx⟩⟩

theorem panics_mapM {f : α → Except Failure β} {xs : List α} :
    Panics (xs.mapM f) ↔ ∃ l x l', xs = l ++ x :: l' ∧ (∀ y ∈ l, Returns (f y)) ∧ Panics (f x) := by
  induction xs with
  | nil =>
    refine ⟨fun h => absurd h (not_panics_ok []), ?_⟩
    rintro ⟨l, x, l', h, -⟩
    cases l <;> cases h
  | cons y ys ih =>
    rw [mapM_cons, panics_bind]
    simp only [panics_bind]
    constructor
    · rintro (h | ⟨c, hc, h | ⟨cs, -, h⟩⟩)
      · exact ⟨[], y, ys, rfl, by simp, h⟩
      · obtain ⟨l, x, l', rfl, hl, hx⟩ := ih.mp h
        exact ⟨y :: l, x, l', rfl, forall_mem_cons.mpr ⟨⟨c, hc⟩, hl⟩, hx⟩
      · exact absurd h (not_panics_ok _)
    · rintro ⟨l, x, l', h, hl, hx⟩
      cases l with
      | nil =>
        cases h
        exact .inl hx
      | cons z l =>
        rw [cons_append, List.cons.injEq] at h
        obtain ⟨rfl, rfl⟩ := h
        obtain ⟨⟨c, hc⟩, hl⟩ := forall_mem_cons.mp hl
        exact .inr ⟨c, hc, .inl (ih.mpr ⟨l, x, l', rfl, hl, hx⟩)⟩

end Panics

theorem panics_byDayTerm {term : List Char} : Panics (byDayTerm term) ↔ ¬ OnBoundary term := by
  rw [← splitAtBytes_eq_none, byDayTerm]
  cases h : splitAtBytes (byteLen term - 2) term with
  | none => exact ⟨fun _ => rfl, fun _ => ⟨_, rfl⟩⟩
  | some p => exact ⟨fun hp => absurd hp (not_panics_mapError _), fun hp => (nomatch hp)⟩

theorem panics_applyPart {d : Draft} {part : List Char} : Panics (applyPart d part) ↔
    ∃ value, splitOnce '=' part = some ("BYDAY".toList, value) ∧ Panics (byDayTerms value) := by
  unfold applyPart
  split
  · rename_i h
    refine ⟨fun ⟨f, hf⟩ => (nomatch hf), fun ⟨value, hv, _⟩ => ?_⟩
    rw [h] at hv
    cases hv
  · rename_i key value h
    split_ifs with hkey
    · rw [panics_bind]
      constructor
      · rintro (hp | ⟨terms, -, hp⟩)
        · exact ⟨value, hkey ▸ h, hp⟩
        · exact absurd hp (not_panics_ok _)
      · rintro ⟨value', hv, hp⟩
        rw [h] at hv
        cases hv
        exact .inl hp
    · refine ⟨fun hp => absurd hp (not_panics_mapError _), fun ⟨value', hv, _⟩ => ?_⟩
      rw [h] at hv
      cases hv
      exact absurd rfl hkey

/-- Every `BYDAY` term the parser gets to is cut between characters. -/
def Sliceable (input : List Char) : Prop :=
  ∀ parts part rest d value, ruleParts input = parts ++ part :: rest →
    parts.foldlM applyPart (none, .empty) = .ok d →
    splitOnce '=' part = some ("BYDAY".toList, value) →
    ∀ terms term rest', value.splitOn ',' = terms ++ term :: rest' →
      (∀ t ∈ terms, Returns (byDayTerm t)) → OnBoundary term

theorem panics_parts {input : List Char} :
    Panics ((ruleParts input).foldlM applyPart (none, .empty)) ↔ ¬ Sliceable input := by
  rw [panics_foldlM]
  simp only [panics_applyPart, byDayTerms, panics_mapM, panics_byDayTerm]
  constructor
  · rintro ⟨parts, part, rest, d, hparts, hd, value, hv, terms, term, rest', hterms, hok, hb⟩ h
    exact hb (h parts part rest d value hparts hd hv terms term rest' hterms hok)
  · intro h
    by_contra hc
    refine h fun parts part rest d value hparts hd hv terms term rest' hterms hok => ?_
    by_contra hb
    exact hc ⟨parts, part, rest, d, hparts, hd, value, hv, terms, term, rest', hterms, hok, hb⟩

theorem panics_parse {input : List Char} : Panics (RRule.parse input) ↔ ¬ Sliceable input := by
  rw [← panics_parts, RRule.parse]
  split_ifs with hbody
  · refine ⟨fun ⟨f, hf⟩ => (nomatch hf), fun hp => ?_⟩
    rw [ruleParts, hbody] at hp
    obtain ⟨f, hf⟩ := hp
    cases hf
  · rw [panics_bind]
    refine ⟨fun hp => hp.resolve_right ?_, .inl⟩
    rintro ⟨⟨freq, r⟩, -, f, hf⟩
    cases freq <;> cases hf

/-- Parsing a text and expanding its rule return without a panic. -/
def PanicFree (input : List Char) (dtstart lo hi : PrimitiveDateTime) : Prop :=
  ¬ Panics (RRule.parse input) ∧
    ∀ r, RRule.parse input = .ok r → Returns (r.expand dtstart lo hi)

/-- **When nothing panics.** -/
theorem panicFree_iff (input : List Char) (dtstart lo hi : PrimitiveDateTime) :
    PanicFree input dtstart lo hi ↔ Sliceable input ∧ ∀ r, RRule.parse input = .ok r →
        ∀ n < RRule.maxPeriods, r.Reached dtstart hi n → r.StepSafe dtstart hi n := by
  rw [PanicFree, panics_parse, not_not]
  simp only [RRule.returns_expand]

namespace Sample

def midnight (d : Fin 366) : PrimitiveDateTime :=
  ⟨⟨738885 + d, by rw [minDay_eq]; omega, by rw [endDay_eq]; omega⟩, Time.midnight⟩

/-- A term whose last two bytes begin inside a character, and an interval that leaves the calendar. -/
theorem not_panicFree :
    ¬ PanicFree "FREQ=DAILY;BYDAY=€".toList (midnight 0) (midnight 0) (midnight 31) ∧
      ¬ PanicFree "FREQ=DAILY;INTERVAL=4294967295".toList (midnight 0) (midnight 0) (midnight 31) := by
  constructor
  · rintro ⟨hp, -⟩
    exact hp ⟨.charBoundary, by decide +kernel⟩
  · rintro ⟨-, he⟩
    obtain ⟨out, hout⟩ := he { RRule.empty with interval := ⟨4294967295, by decide⟩ } (by decide +kernel)
    have hfault : RRule.expand { RRule.empty with interval := ⟨4294967295, by decide⟩ } (midnight 0)
      (midnight 0) (midnight 31) = .error .outOfRange := by decide +kernel
    rw [hfault] at hout
    cases hout

end Sample

end UldrenLoom.Rrule
