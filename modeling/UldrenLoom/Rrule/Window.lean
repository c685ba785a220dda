import UldrenLoom.Rrule.Complete

/-!
# Windows and counts

What an expansion takes does not depend on the window it is asked for, and `COUNT` bounds it.

* **`expand_window`**: the expansion over a window increases, and is the part in it of the expansion
  over a larger window.
* **`count_iff`**: a set has at most `COUNT` instances exactly when the start is an occurrence or
  there are fewer than `COUNT`.
-/

namespace UldrenLoom.Rrule

open Fallible Calendar List Nat PrimitiveDateTime Date

namespace RRule

variable {r : RRule} {dtstart lo hi x y : PrimitiveDateTime} {set out : List PrimitiveDateTime}
  {m n i j : ℕ}

/-! ## What a period adds -/

theorem scan_out {emitted : ℕ} {flow : Flow} (h : r.scan lo hi set emitted out = .ok flow) :
    ∃ k ≤ set.length, flow.out = out ++ (set.take k).filter (fun dt => lo ≤ dt) ∧
      ∀ i < k, r.Counted hi emitted set i ∧ ∀ x, set[i]? = some x → x < hi := by
  induction set generalizing emitted out with
  | nil =>
    cases h
    exact ⟨0, le_rfl, by simp [Flow.out], fun i hi => absurd hi (not_lt_zero i)⟩
  | cons dt set ih =>
    rw [scan] at h
    split_ifs at h with h1 h2 h3
    iterate 2
      cases h
      exact ⟨0, zero_le _, by simp [Flow.out], fun i hi => absurd hi (not_lt_zero i)⟩
    · obtain ⟨k, hk, hout, hc⟩ := ih h
      refine ⟨k + 1, succ_le_succ hk, ?_, fun i hik => ?_⟩
      · rw [hout, take_succ_cons, keep_append]
      · cases i with
        | zero => exact ⟨counted_zero.mpr h1, fun x hx => by cases hx; exact not_le.mp h3⟩
        | succ i =>
          obtain ⟨hci, hlt⟩ := hc i (by omega)
          exact ⟨counted_succ.mpr ⟨⟨h1, not_le.mp h3⟩, hci⟩, hlt⟩

/-- What the elements taken from a period preserve holds of the result. -/
theorem expand_rule {P : ℕ → List PrimitiveDateTime → Prop}
    (step : ∀ n k out, n < maxPeriods → r.Reached dtstart hi n → k ≤ (r.occurrences dtstart n).length →
      (∀ i < k, r.Counted hi (r.emitted dtstart n) (r.occurrences dtstart n) i ∧
        ∀ x, (r.occurrences dtstart n)[i]? = some x → x < hi) → P n out →
      P (n + 1) (out ++ ((r.occurrences dtstart n).take k).filter (fun dt => lo ≤ dt)))
    (h0 : P 0 []) (h : r.expand dtstart lo hi = .ok out) : ∃ n, P n out := by
  suffices ∀ fuel n out res, n + fuel ≤ maxPeriods → r.Reached dtstart hi n → P n out →
      r.periods dtstart lo hi fuel n (r.emitted dtstart n) out = .ok res → ∃ n, P n res from
    this maxPeriods 0 [] out (by omega) (fun k hk => absurd hk (not_lt_zero k)) h0 h
  intro fuel
  induction fuel with
  | zero =>
    intro n out res _ _ hP h
    cases h
    exact ⟨n, hP⟩
  | succ fuel ih =>
    intro n out res hn hr hP h
    rw [periods] at h
    obtain ⟨set, hset, h⟩ := of_bind h
    rw [← occurrences_of_ok hset] at h
    obtain ⟨flow, hflow, h⟩ := of_bind h
    obtain ⟨k, hk, hout, hc⟩ := scan_out hflow
    have hnext := step n k out (by omega) hr hk hc hP
    rw [← hout] at hnext
    cases flow with
    | stop out' =>
      cases h
      exact ⟨n + 1, hnext⟩
    | next e out' =>
      obtain ⟨hh, rfl, -⟩ := scan_eq_next hflow
      obtain ⟨b, hb, h⟩ := of_bind h
      cases b with
      | true =>
        cases h
        exact ⟨n + 1, hnext⟩
      | false => exact ih (n + 1) out' res (by omega) (reached_succ hr hh (by simp [hb])) hnext h

/-- The steps in years that the loop reaches do not overflow an `i32`. -/
def YearsFit (r : RRule) (dtstart hi : PrimitiveDateTime) : Prop :=
  ∀ n < maxPeriods, r.Reached dtstart hi n → r.Exact n

theorem expand_increasing (hfit : r.YearsFit dtstart hi) (h : r.expand dtstart lo hi = .ok out) :
    out.Pairwise (· < ·) := by
  suffices ∃ n, out.Pairwise (· < ·) ∧ ∀ x ∈ out, ∃ m < n, x ∈ r.occurrences dtstart m from
    this.choose_spec.1
  refine expand_rule (P := fun n out => out.Pairwise (· < ·) ∧
    ∀ x ∈ out, ∃ m < n, x ∈ r.occurrences dtstart m) ?_ ⟨.nil, by simp⟩ h
  rintro n k out hn hr - - ⟨hp, hm⟩
  have htake {y} (hy : y ∈ ((r.occurrences dtstart n).take k).filter fun dt => lo ≤ dt) :
      y ∈ r.occurrences dtstart n := mem_of_mem_take (mem_of_mem_filter hy)
  refine ⟨pairwise_append.mpr ⟨hp, (occurrences_pairwise n).take.filter _, fun x hx y hy => ?_⟩,
    fun x hx => ?_⟩
  · obtain ⟨m, hmn, hx⟩ := hm x hx
    exact occurrences_lt (hfit n hn hr) hmn hx (htake hy)
  · rcases mem_append.mp hx with hx | hx
    · obtain ⟨m, hmn, hx⟩ := hm x hx
      exact ⟨m, hmn.trans (lt_succ_self n), hx⟩
    · exact ⟨n, lt_succ_self n, htake hx⟩

theorem lt_count {c : {n : ℕ // n < 2 ^ 32}} (hc : r.count = some c) (h : r.Occurs dtstart n i x) :
    r.emitted dtstart n + i < c.1 := by
  have hex := h.2
  rw [exhausted, hc, Bool.or_eq_true, not_or] at hex
  simpa using hex.2

/-- **An expansion has at most `COUNT` elements**, and takes the last one if it has so many. -/
theorem length_expand_le {c : {n : ℕ // n < 2 ^ 32}} (hc : r.count = some c) (hpos : 0 < c.1)
    (h : r.expand dtstart lo hi = .ok out) : out.length ≤ c.1 ∧ (out.length = c.1 →
      ∃ n < maxPeriods, ∃ i x, r.Takes dtstart hi n i x ∧ x < hi ∧
        r.emitted dtstart n + i + 1 = c.1) := by
  refine (expand_rule (P := fun n out => out.length ≤ r.emitted dtstart n ∧ out.length ≤ c.1 ∧
    (out.length = c.1 → _)) ?_ ⟨le_rfl, zero_le _, fun h => absurd h hpos.ne⟩ h).choose_spec.2
  rintro n k out hn hr hk hcount ⟨hlen, hle, hfull⟩
  have hadd : (((r.occurrences dtstart n).take k).filter fun dt => lo ≤ dt).length ≤ k :=
    (length_filter_le _ _).trans (length_take_le _ _)
  rw [emitted, length_append]
  refine ⟨by omega, ?_⟩
  cases k with
  | zero => exact ⟨by omega, fun h => hfull (by omega)⟩
  | succ k =>
    obtain ⟨hk', hlt⟩ := hcount k (lt_succ_self k)
    obtain ⟨x, hx, hex⟩ := hk'.1
    have := lt_count hc ⟨hx, hex⟩
    exact ⟨by omega, fun h => ⟨n, hn, k, x, ⟨hr, hx, hk'⟩, hlt x hx, by omega⟩⟩

/-- Different periods have different elements; a year that wraps around differs from the others too. -/
theorem occurrences_disjoint (hmn : m < n) (hx : x ∈ r.occurrences dtstart m) :
    x ∉ r.occurrences dtstart n := by
  intro hy
  by_cases hf : r.freq = .yearly
  swap
  · exact (occurrences_lt (fun h => absurd h hf) hmn hx hy).false
  have hyear {k : ℕ} (hk : x ∈ r.occurrences dtstart k) : k * r.interval < 2 ^ 32 ∧
      r.yearStart (dtstart.date.year + asI32 (k * r.interval)) ≤ x.date.day ∧
      x.date.day < r.yearStart (dtstart.date.year + asI32 (k * r.interval) + 1) := by
    obtain ⟨-, set, hset, hmem⟩ := occurrences_mem hk
    rw [periodSet, if_neg (by simp [subdaily, hf])] at hset
    obtain ⟨dates, hdates, hset⟩ := of_bind hset
    cases hset
    obtain ⟨d, hd, hxd⟩ := mem_flatMap.mp hmem
    obtain ⟨t, -, rfl⟩ := mem_map.mp hxd
    simp only [periodDates, hf] at hdates
    obtain ⟨y, hy, hdates⟩ := of_bind hdates
    obtain ⟨ds, hds, hdates⟩ := of_bind hdates
    cases hdates
    obtain ⟨hlt, rfl, -⟩ := periodYear_eq_ok.mp hy
    exact ⟨hlt, yearDates_mem hds (mem_of_mem_filter hd)⟩
  obtain ⟨hm, hmlo, hmhi⟩ := hyear hx
  obtain ⟨hn, hnlo, hnhi⟩ := hyear hy
  have hlt : m * r.interval.1 < n * r.interval.1 := mul_lt_mul_of_pos_right hmn r.interval.2.1
  have h1 := r.yearStart_strictMono.lt_iff_lt.mp (hmlo.trans_lt hnhi)
  have h2 := r.yearStart_strictMono.lt_iff_lt.mp (hnlo.trans_lt hmhi)
  unfold asI32 at h1 h2
  split_ifs at h1 h2 <;> omega

theorem counted_of_not_halts {emitted : ℕ} (h : ¬ r.Halts hi emitted set) (hx : set[i]? = some x) :
    r.Counted hi emitted set i := by
  refine ⟨⟨x, hx, fun he => h ⟨i, x, hx, .inl he⟩⟩, fun j _ y hy => ?_⟩
  exact ⟨fun he => h ⟨j, y, hy, .inl he⟩, not_le.mp fun hle => h ⟨j, y, hy, .inr hle⟩⟩

/-- The elements up to one that is taken are taken too, and they are all different. -/
theorem le_length_expand (h : r.expand dtstart dtstart hi = .ok out) (hn : n < maxPeriods)
    (hr : r.Reached dtstart hi n) (hocc : r.Occurs dtstart n i x) (hx : x < hi) :
    r.emitted dtstart n + i + 1 ≤ (sorted out).length := by
  have hi' : i < (r.occurrences dtstart n).length := (List.getElem?_eq_some_iff.mp hocc.1).1
  have hcount := counted_of_occurs hocc hx
  have hlen : ((range n).flatMap (r.occurrences dtstart)).length = r.emitted dtstart n := by
    clear * -
    induction n with
    | zero => rfl
    | succ n ih => rw [range_succ, flatMap_append, length_append, ih, flatMap_singleton]; rfl
  have hnodup : ((range n).flatMap (r.occurrences dtstart) ++
      (r.occurrences dtstart n).take (i + 1)).Nodup := by
    refine nodup_append'.mpr ⟨nodup_flatMap.mpr ⟨fun k _ => ?_, ?_⟩, ?_, fun y hy hy' => ?_⟩
    · exact (occurrences_pairwise k).imp LT.lt.ne
    · exact pairwise_lt_range.imp fun hab _ h1 h2 => occurrences_disjoint hab h1 h2
    · exact ((occurrences_pairwise n).imp LT.lt.ne).sublist (take_sublist _ _)
    · obtain ⟨k, hk, hy⟩ := mem_flatMap.mp hy
      exact occurrences_disjoint (mem_range.mp hk) hy (mem_of_mem_take hy')
  have hsub : ∀ y ∈ (range n).flatMap (r.occurrences dtstart) ++
      (r.occurrences dtstart n).take (i + 1), y ∈ sorted out := by
    intro y hy
    rw [mem_sorted, mem_expand h]
    rcases mem_append.mp hy with hy | hy
    · obtain ⟨k, hk, hy⟩ := mem_flatMap.mp hy
      have hk := mem_range.mp hk
      obtain ⟨j, hj⟩ := mem_iff_getElem?.mp hy
      refine ⟨(occurrences_mem hy).1, ?_, k, hk.trans hn, j, ?_⟩
      · exact not_le.mp fun hle => (hr k hk).1 ⟨j, y, hj, .inr hle⟩
      · exact ⟨fun l hl => hr l (hl.trans hk), hj, counted_of_not_halts (hr k hk).1 hj⟩
    · obtain ⟨j, hj⟩ := mem_iff_getElem?.mp hy
      rw [getElem?_take] at hj
      split_ifs at hj with hji
      have hle : y ≤ x := by
        rcases (le_of_lt_succ hji).eq_or_lt with rfl | hji
        · exact (Option.some.inj (hj.symm.trans hocc.1)).le
        · obtain ⟨hjl, rfl⟩ := List.getElem?_eq_some_iff.mp hj
          obtain ⟨hil, rfl⟩ := List.getElem?_eq_some_iff.mp hocc.1
          exact (pairwise_iff_getElem.mp (occurrences_pairwise n) j i hjl hil hji).le
      refine ⟨(occurrences_mem (mem_of_mem_take hy)).1, hle.trans_lt hx, n, hn, j, hr, hj, ?_⟩
      refine counted_of_occurs ⟨hj, fun hex => hocc.2 ?_⟩ (hle.trans_lt hx)
      exact exhausted_mono (by omega) hle hex
  have := (hnodup.subperm hsub).length_le
  rw [length_append, hlen, length_take] at this
  omega

/-! ## A larger window -/

theorem day_le_of_le (h : x ≤ y) : x.date.day ≤ y.date.day := by
  have hx := x.time.lt_dayNanos
  have hy := y.time.lt_dayNanos
  simp only [le_iff, PrimitiveDateTime.nanos, dayNanos] at *
  omega

theorem startAfter_of_le (hle : y ≤ hi) (h : r.periodStartAfter dtstart n hi = .ok true) :
    r.periodStartAfter dtstart n y = .ok true := by
  have hday {d : ℤ} (h : hi.date.day < d) : y.date.day < d := (day_le_of_le hle).trans_lt h
  unfold periodStartAfter at h ⊢
  cases hf : r.freq <;> simp only [hf] at h ⊢
  case monthly =>
    obtain ⟨p, hp, h⟩ := of_bind h
    obtain ⟨d, hd, h⟩ := of_bind h
    exact bind_eq_ok.mpr ⟨p, hp, bind_eq_ok.mpr ⟨d, hd, congrArg _ (decide_eq_true
      (hday (of_decide_eq_true (Except.ok.inj h))))⟩⟩
  case yearly =>
    obtain ⟨z, hz, h⟩ := of_bind h
    refine bind_eq_ok.mpr ⟨z, hz, congrArg _ ?_⟩
    cases hd : Date.fromCalendarDate z 1 1 with
    | none => rfl
    | some d =>
      rw [hd] at h
      exact decide_eq_true (hday (of_decide_eq_true (Except.ok.inj h)))
  case daily | weekly =>
    obtain ⟨d, hd, h⟩ := of_bind h
    exact bind_eq_ok.mpr ⟨d, hd, congrArg _ (decide_eq_true
      (hday (of_decide_eq_true (Except.ok.inj h))))⟩
  all_goals
    obtain ⟨base, hb, h⟩ := of_bind h
    exact bind_eq_ok.mpr ⟨base, hb, congrArg _ (decide_eq_true
      (hle.trans_lt (of_decide_eq_true (Except.ok.inj h))))⟩

theorem Reached.mono (hle : y ≤ hi) (h : r.Reached dtstart y n) : r.Reached dtstart hi n := by
  refine fun k hk => ⟨?_, fun ha => (h k hk).2 (startAfter_of_le hle ha)⟩
  rintro ⟨j, dt, hdt, hor⟩
  exact (h k hk).1 ⟨j, dt, hdt, hor.imp_right hle.trans⟩

/-- What is taken for a window is taken for a window that ends later. -/
theorem Takes.mono (hle : y ≤ hi) (h : r.Takes dtstart y n i x) : r.Takes dtstart hi n i x := by
  obtain ⟨hr, hget, hc, hbefore⟩ := h
  refine ⟨hr.mono hle, hget, hc, fun j hj dt hdt => ?_⟩
  exact ⟨(hbefore j hj dt hdt).1, (hbefore j hj dt hdt).2.trans_le hle⟩

theorem Takes.occurs (h : r.Takes dtstart hi n i x) : r.Occurs dtstart n i x := by
  obtain ⟨-, hget, ⟨x', hx', hex⟩, -⟩ := h
  cases hget.symm.trans hx'
  exact ⟨hget, hex⟩

/-- **The expansion over a window increases, and is the part in it of one over a larger window.** -/
theorem expand_window {lo' hi' : PrimitiveDateTime} {out' : List PrimitiveDateTime} (hlo : lo ≤ lo')
    (hhi : hi' ≤ hi) (hfit : r.YearsFit dtstart hi) (h : r.expand dtstart lo hi = .ok out)
    (h' : r.expand dtstart lo' hi' = .ok out') :
    out' = out.filter (fun dt => lo' ≤ dt ∧ dt < hi') ∧ out.Pairwise (· < ·) ∧
      out'.Pairwise (· < ·) := by
  have hs := expand_increasing hfit h
  have hs' := expand_increasing (fun n hn hr => hfit n hn (hr.mono hhi)) h'
  refine ⟨hs'.eq_of_mem_iff (hs.filter _) fun x => ?_, hs, hs'⟩
  rw [mem_filter, mem_expand h, mem_expand h', decide_eq_true_eq]
  constructor
  · rintro ⟨h1, h2, n, hn, i, ht⟩
    exact ⟨⟨hlo.trans h1, h2.trans_le hhi, n, hn, i, ht.mono hhi⟩, h1, h2⟩
  · rintro ⟨⟨-, -, n, hn, i, ht⟩, h1, h2⟩
    exact ⟨h1, h2, n, hn, i, takes_of_occurs (hfit n hn ht.1) ht.occurs h2⟩

end RRule

/-! ## Recurrence sets -/

/-- A start, rules, and dates to add and to leave out. -/
structure RecurrenceSet where
  dtstart : PrimitiveDateTime
  rrules : List RRule
  rdates : List PrimitiveDateTime
  exdates : List PrimitiveDateTime
deriving Repr, DecidableEq

def inWindow (lo hi d : PrimitiveDateTime) : Bool := lo ≤ d && d < hi

/-- The start, what the rules give and the dates to add, without those to leave out. -/
def RecurrenceSet.expand (s : RecurrenceSet) (lo hi : PrimitiveDateTime) :
    Except Fault (List PrimitiveDateTime) := do
  let start := if inWindow lo hi s.dtstart then [s.dtstart] else []
  let given ← concatMap (fun r => r.expand s.dtstart lo hi) s.rrules
  let added := s.rdates.filter (inWindow lo hi)
  return (sorted (start ++ given ++ added)).filter fun d => d ∉ s.exdates

/-- A start with one rule. -/
def RRule.recurrence (r : RRule) (dtstart : PrimitiveDateTime) : RecurrenceSet :=
  ⟨dtstart, [r], [], []⟩

section Count

variable {r : RRule} {dtstart lo hi : PrimitiveDateTime} {s : List PrimitiveDateTime}

theorem recurrence_expand_eq_ok : (r.recurrence dtstart).expand lo hi = .ok s ↔
    ∃ out, r.expand dtstart lo hi = .ok out ∧
      s = sorted ((if inWindow lo hi dtstart then [dtstart] else []) ++ out) := by
  rw [RRule.recurrence, RecurrenceSet.expand]
  simp only [concatMap, bind_eq_ok]
  constructor
  · rintro ⟨_, ⟨out, hout, _, ⟨⟩, ⟨⟩⟩, ⟨⟩⟩
    exact ⟨out, hout, by simp⟩
  · rintro ⟨out, hout, rfl⟩
    exact ⟨_, ⟨out, hout, _, rfl, rfl⟩, by simp [pure, Except.pure]⟩

theorem sorted_congr {l l' : List PrimitiveDateTime} (h : ∀ x, x ∈ l ↔ x ∈ l') :
    sorted l = sorted l' :=
  (RRule.sorted_pairwise l).eq_of_mem_iff (RRule.sorted_pairwise l') fun x => by
    rw [RRule.mem_sorted, RRule.mem_sorted, h]

theorem length_sorted_cons (x : PrimitiveDateTime) (l : List PrimitiveDateTime) :
    (sorted (x :: l)).length = (sorted l).length + if x ∈ l then 0 else 1 := by
  split_ifs with h
  · rw [sorted_congr fun y => ⟨fun hy => (mem_cons.mp hy).elim (· ▸ h) id, mem_cons_of_mem x⟩]
    rfl
  · have hnodup (l) : (sorted l).Nodup := SortedSet.nodup_elems _
    have hcons := nodup_cons.mpr ⟨mt RRule.mem_sorted.mp h, hnodup l⟩
    exact ((perm_ext_iff_of_nodup (hnodup _) hcons).mpr fun y => by
      rw [RRule.mem_sorted, mem_cons, mem_cons, RRule.mem_sorted]).length_eq

/-- The rule has a `c`-th occurrence, and it is before the end of a window that can be expanded. -/
def RRule.Fills (r : RRule) (dtstart : PrimitiveDateTime) (c : ℕ) : Prop :=
  ∃ hi, (∀ n < RRule.maxPeriods, r.Reached dtstart hi n → r.StepSafe dtstart hi n) ∧
    ∃ n < RRule.maxPeriods, ∃ i x, r.Reached dtstart hi n ∧ r.Occurs dtstart n i x ∧ x < hi ∧
      r.emitted dtstart n + i + 1 = c

/-- **`COUNT` bounds the set of a rule exactly when the start is an occurrence or the rule does not
get to `COUNT` occurrences.** -/
theorem count_iff {c : {n : ℕ // n < 2 ^ 32}} (hc : r.count = some c) (hpos : 0 < c.1) :
    (∀ lo hi s, (r.recurrence dtstart).expand lo hi = .ok s → s.length ≤ c.1) ↔
      (∃ n i, r.Occurs dtstart n i dtstart) ∨ ¬ r.Fills dtstart c.1 := by
  constructor
  · intro h
    refine or_iff_not_imp_right.mpr fun hfill => ?_
    obtain ⟨hi, hsafe, n, hn, i, x, hr, hocc, hx, he⟩ := not_not.mp hfill
    obtain ⟨out, hout⟩ : Returns (r.expand dtstart dtstart hi) := RRule.returns_expand.mpr hsafe
    by_cases hmem : dtstart ∈ out
    · obtain ⟨-, -, m, -, j, ht⟩ := (RRule.mem_expand hout _).mp hmem
      exact ⟨m, j, ht.occurs⟩
    -- otherwise the start is one more than the occurrences up to the last one counted
    have hin : inWindow dtstart hi dtstart = true := by
      have hle := (RRule.occurrences_mem (mem_of_getElem? hocc.1)).1
      simp [inWindow, hle.trans_lt hx]
    have hle := h dtstart hi _ (recurrence_expand_eq_ok.mpr ⟨out, hout, rfl⟩)
    have hlen := RRule.le_length_expand hout hn hr hocc hx
    rw [hin, if_pos rfl, singleton_append, length_sorted_cons, if_neg hmem] at hle
    omega
  · intro h lo hi s hs
    obtain ⟨out, hout, rfl⟩ := recurrence_expand_eq_ok.mp hs
    obtain ⟨hle, hlast⟩ := RRule.length_expand_le hc hpos hout
    have hlen := (RRule.sorted_length_le out).trans hle
    split_ifs with hin
    swap
    · exact hlen
    simp only [inWindow, Bool.and_eq_true, decide_eq_true_eq] at hin
    rw [singleton_append, length_sorted_cons]
    split_ifs with hd
    · exact hlen
    refine lt_of_le_of_ne hlen fun hfull => ?_
    obtain ⟨n, hn, i, x, ht, hx, he⟩ :=
      hlast (hle.antisymm (hfull.symm.le.trans (RRule.sorted_length_le out)))
    rcases h with ⟨m, j, hstart⟩ | hfill
    · -- the start is counted before the last one
      have hlt : r.emitted dtstart m + j < c.1 := RRule.lt_count hc hstart
      have hmn : m ≤ n := by
        by_contra hmn
        have := r.emitted_mono dtstart (not_le.mp hmn)
        have hi := (List.getElem?_eq_some_iff.mp ht.2.1).1
        rw [succ_eq_add_one, RRule.emitted] at this
        omega
      refine hd ((RRule.mem_expand hout _).mpr ⟨hin.1, hin.2, m, hmn.trans_lt hn, j, ?_⟩)
      exact ⟨fun k hk => ht.1 k (hk.trans_le hmn), hstart.1, RRule.counted_of_occurs hstart hin.2⟩
    · exact hfill ⟨hi, RRule.returns_expand.mp ⟨out, hout⟩, n, hn, i, x, ht.1, ht.occurs, hx, he⟩

end Count

namespace Sample

/-- A midnight of January 2021. -/
def januaryDay (d : Fin 30) : PrimitiveDateTime :=
  ⟨⟨737790 + d, by rw [minDay_eq]; omega, by rw [endDay_eq]; omega⟩, Time.midnight⟩

theorem daily_window : [januaryDay 2, januaryDay 3] =
    ([0, 1, 2, 3, 4].map januaryDay).filter (fun dt => januaryDay 2 ≤ dt ∧ dt < januaryDay 4) := by
  have hout : (every .daily).expand (januaryDay 0) (januaryDay 0) (januaryDay 5) =
      .ok ([0, 1, 2, 3, 4].map januaryDay) := by decide +kernel
  have hout' : (every .daily).expand (januaryDay 0) (januaryDay 2) (januaryDay 4) =
      .ok [januaryDay 2, januaryDay 3] := by decide +kernel
  exact (RRule.expand_window (by decide +kernel) (by decide +kernel)
    (fun _ _ _ hf => absurd hf (by decide)) hout hout').1

def counted (c : Fin 10) : RRule := { every .daily with count := some ⟨c, by omega⟩ }

/-- One second of the month, and the start before it. -/
theorem two_instances : ({ counted 1 with byMonthDay := [⟨2, by decide⟩] }.recurrence
    (januaryDay 0)).expand (januaryDay 0) (januaryDay 4) = .ok [januaryDay 0, januaryDay 1] := by
  decide +kernel

theorem daily_counted : (counted 3).count = some ⟨3, by decide⟩ ∧
    ∀ lo hi s, ((counted 3).recurrence (januaryDay 0)).expand lo hi = .ok s → s.length ≤ 3 :=
  ⟨rfl, (count_iff (c := ⟨3, by decide⟩) rfl (by decide)).mpr
    (.inl ⟨0, 0, by decide +kernel, by decide +kernel⟩)⟩

end Sample

end UldrenLoom.Rrule
