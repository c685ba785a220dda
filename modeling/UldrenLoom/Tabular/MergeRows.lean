import UldrenLoom.Prolly.Diff
import UldrenLoom.Prolly.Runs
import UldrenLoom.Tabular.Merge
import UldrenLoom.Tabular.RowRoundTrip

/-!
# The row-level merge

* **`mergeRows_iff`**: the three-way law holds exactly when the rows reported as conflicts can be read
  and the merged tree is not too high.
-/

namespace UldrenLoom.Tabular

open ByteString Fallible Lists OrdMap LevelTree List
open Prolly (Node MemoryStore DiffEntry Represents maxDepth)

/-! ## The loop over the differences -/

/-- The value of a key after an outcome, from its value in ours. -/
def Outcome.value (old : Option Bytes) : Outcome → Option Bytes
  | .assign v => v
  | .keep => old
  | .conflict _ => old

def Outcome.row? : Outcome → Option Row
  | .conflict row => some row
  | _ => none

variable (acc : List (Bytes × Bytes) × List Row)

theorem get_applyOutcome_self (k : Bytes) (o : Outcome) :
    get k (applyOutcome acc k o).1 = o.value (get k acc.1) := by
  match o with
  | .assign (some v) => exact (get_insert k k v acc.1).trans (if_pos rfl)
  | .assign none => exact (get_erase k k acc.1).trans (if_pos rfl)
  | .keep | .conflict row => rfl

variable {k v : Bytes}

theorem get_applyOutcome_of_ne {key : Bytes} (h : key ≠ k)
    (o : Outcome) : get k (applyOutcome acc key o).1 = get k acc.1 := by
  match o with
  | .assign (some v) => exact (get_insert key k v acc.1).trans (if_neg h)
  | .assign none => exact (get_erase key k acc.1).trans (if_neg h)
  | .keep | .conflict row => rfl

theorem ascending_applyOutcome {acc : List (Bytes × Bytes) × List Row} (h : Ascending acc.1)
    (key : Bytes) (o : Outcome) : Ascending (applyOutcome acc key o).1 := by
  match o with
  | .assign (some v) => exact ascending_insert h key v
  | .assign none => exact ascending_erase h key
  | .keep | .conflict row => exact h

theorem snd_applyOutcome (key : Bytes) (o : Outcome) :
    (applyOutcome acc key o).2 = acc.2 ++ o.row?.toList := by
  match o with
  | .assign (some v) | .assign none | .keep => exact (append_nil _).symm
  | .conflict row => rfl

/-- **The loop, key by key**: each difference decides its key, and conflicts keep the order. -/
theorem foldl_applyOutcome (out : Bytes → Outcome) {ds : List DiffEntry}
    (hds : ds.Pairwise fun x y => x.1 < y.1) (acc : List (Bytes × Bytes) × List Row)
    (hacc : Ascending acc.1) :
    let r := ds.foldl (fun acc d => applyOutcome acc d.1 (out d.1)) acc
    Ascending r.1 ∧
    (∀ k ∈ ds.map Prod.fst, get k r.1 = (out k).value (get k acc.1)) ∧
    (∀ k ∉ ds.map Prod.fst, get k r.1 = get k acc.1) ∧
    r.2 = acc.2 ++ (ds.map Prod.fst).filterMap fun k => (out k).row? := by
  induction ds generalizing acc with
  | nil => simpa using hacc
  | cons d ds ih =>
    obtain ⟨hlt, hds⟩ := pairwise_cons.mp hds
    obtain ⟨h₁, h2, h₃, h4⟩ := ih hds _ (ascending_applyOutcome hacc d.1 (out d.1))
    refine ⟨h₁, fun k hk => ?_, fun k hk => ?_, ?_⟩
    · rw [foldl_cons]
      rcases mem_cons.mp hk with rfl | hk
      · have hnot : d.1 ∉ ds.map Prod.fst := fun hmem => by
          obtain ⟨e, he, hek⟩ := mem_map.mp hmem
          exact absurd hek (hlt e he).ne'
        rw [h₃ _ hnot, get_applyOutcome_self]
      · have hne : d.1 ≠ k := by
          obtain ⟨e, he, rfl⟩ := mem_map.mp hk
          exact (hlt e he).ne
        rw [h2 k hk, get_applyOutcome_of_ne acc hne]
    · rw [map_cons, mem_cons, not_or] at hk
      rw [foldl_cons, h₃ k hk.2, get_applyOutcome_of_ne acc fun h => hk.1 h.symm]
    · rw [foldl_cons, h4, snd_applyOutcome, map_cons, append_assoc]
      congr 1
      cases h : (out d.1).row? with
      | none => simp [h]
      | some row => simp [h]

/-! ## What the merge does -/

/-- A root whose tree can be read, over the given entries. -/
structure Revision {D : Type} (read : D → Result (Node D)) (root : Option D)
    (E : List (Bytes × Bytes)) : Prop where
  represents : Represents read root E
  readable : Prolly.entriesOf read root = .ok E

/-- What happens to a key with the given values, if theirs changed it. -/
def outcomeAt (reconcile : (base ours theirs : Option Bytes) → Result Outcome)
    (base ours theirs : Option Bytes) : Result Outcome :=
  if ours = base then .ok (.assign theirs) else reconcile base ours theirs

section Loop

variable {D : Type} [DecidableEq D] [ToString D] {hash : Node D → D} {B : Bytes → ℕ → Bool}
  {reconcile : (base ours theirs : Option Bytes) → Result Outcome}
  {s : MemoryStore hash} {base ours theirs : Option D} {Eb Eo Et : List (Bytes × Bytes)}
  (hb : Revision s.readNode base Eb) (ho : Revision s.readNode ours Eo)
  (ht : Revision s.readNode theirs Et)

include hb ho ht

variable (reconcile) in
theorem mergeWith_eq : ∃ (ds : List DiffEntry) (f : DiffEntry → Result Outcome),
      ds.Pairwise (fun x y => x.1 < y.1) ∧
      (∀ k, k ∈ ds.map Prod.fst ↔ get k Et ≠ get k Eb) ∧
      (∀ d ∈ ds, f d = outcomeAt reconcile (get d.1 Eb) (get d.1 Eo) (get d.1 Et)) ∧
      mergeWith B reconcile base ours theirs s =
        ds.foldlM (fun acc d => f d >>= fun o => .ok (applyOutcome acc d.1 o)) (Eo, []) >>= fun r =>
          if r.2.isEmpty then Prolly.build B r.1 s >>= fun b => .ok (.merged b.1, b.2)
          else .ok (.conflicts r.2, s) := by
  obtain ⟨od, hod, hodp, hodm⟩ := Prolly.diff_rep hb.represents ho.represents hb.readable ho.readable
  obtain ⟨td, htd, htdp, htdm⟩ := Prolly.diff_rep hb.represents ht.represents hb.readable ht.readable
  -- what ours changed, as a map
  have hoc : insertAll (od.map fun d => (d.1, d.2.2)) [] = od.map fun d => (d.1, d.2.2) :=
    insertAll_of_perm (pairwise_map.mpr hodp) (List.Perm.refl _)
  have hget : ∀ k, get k (od.map fun d => (d.1, d.2.2)) =
      if get k Eo = get k Eb then none else some (get k Eo) := by
    intro k
    split_ifs with heq
    · refine get_eq_none.mpr fun e he hk => ?_
      obtain ⟨⟨k', x, y⟩, hd, rfl⟩ := mem_map.mp he
      obtain ⟨rfl, rfl, hne⟩ := (hodm k' x y).mp hd
      obtain rfl : k' = k := hk
      exact hne heq.symm
    · refine get_of_mem (Ascending.distinct (pairwise_map.mpr hodp)) (mem_map.mpr
        ⟨(k, get k Eb, get k Eo), (hodm _ _ _).mpr ⟨rfl, rfl, fun h => heq h.symm⟩, rfl⟩)
  have hrows : insertAll Eo [] = Eo :=
    insertAll_of_perm ho.represents.ascending (List.Perm.refl _)
  refine ⟨td, outcomeOf reconcile (od.map fun d => (d.1, d.2.2)), htdp, fun k => ?_, ?_, ?_⟩
  · constructor
    · intro hk
      obtain ⟨⟨k', x, y⟩, hd, rfl⟩ := mem_map.mp hk
      obtain ⟨rfl, rfl, hne⟩ := (htdm k' x y).mp hd
      exact fun h => hne h.symm
    · intro hne
      exact mem_map.mpr ⟨(k, _, _), (htdm _ _ _).mpr ⟨rfl, rfl, fun h => hne h.symm⟩, rfl⟩
  · rintro ⟨k, x, y⟩ hd
    obtain ⟨rfl, rfl, -⟩ := (htdm k x y).mp hd
    rw [outcomeOf, outcomeAt, hget]
    split_ifs <;> rfl
  · rw [mergeWith, hod, ok_bind, htd, ok_bind, ho.readable, ok_bind, hoc, hrows]

/-- **The merge where every change has an outcome.** -/
theorem mergeWith_of_ok {out : Bytes → Outcome} (hout : ∀ k, get k Et ≠ get k Eb →
      outcomeAt reconcile (get k Eb) (get k Eo) (get k Et) = .ok (out k)) :
    ∃ (keys : List Bytes) (M : List (Bytes × Bytes)), keys.Pairwise (· < ·) ∧
      (∀ k, k ∈ keys ↔ get k Et ≠ get k Eb) ∧ Ascending M ∧
      (∀ k, get k Et ≠ get k Eb → get k M = (out k).value (get k Eo)) ∧
      (∀ k, get k Et = get k Eb → get k M = get k Eo) ∧
      mergeWith B reconcile base ours theirs s =
        if (keys.filterMap fun k => (out k).row?).isEmpty then
          Prolly.build B M s >>= fun b => .ok (.merged b.1, b.2)
        else .ok (.conflicts (keys.filterMap fun k => (out k).row?), s) := by
  obtain ⟨ds, f, hds, hkeys, hf, heq⟩ := mergeWith_eq (B := B) reconcile hb ho ht
  obtain ⟨hM, hin, hnot, hrows⟩ :=
    foldl_applyOutcome out hds (Eo, []) ho.represents.ascending
  refine ⟨ds.map Prod.fst, _, pairwise_map.mpr hds, hkeys, hM,
    fun k hk => hin k ((hkeys k).mpr hk), fun k hk => hnot k fun hmem => (hkeys k).mp hmem hk, ?_⟩
  have hstep : ∀ d ∈ ds, f d = .ok (out d.1) := by
    intro d hd
    rw [hf d hd]
    exact hout d.1 ((hkeys d.1).mp (mem_map_of_mem hd))
  rw [heq, foldlM_of_ok hstep, ok_bind, hrows, nil_append]

/-- A change that cannot be reconciled fails the whole merge, with the error of some change. -/
theorem mergeWith_of_error {k : Bytes} (hk : get k Et ≠ get k Eb) {e : LoomError}
    (he : outcomeAt reconcile (get k Eb) (get k Eo) (get k Et) = .error e) :
    ∃ k' e', get k' Et ≠ get k' Eb ∧
      outcomeAt reconcile (get k' Eb) (get k' Eo) (get k' Et) = .error e' ∧
      mergeWith B reconcile base ours theirs s = .error e' := by
  obtain ⟨ds, f, -, hkeys, hf, heq⟩ := mergeWith_eq (B := B) reconcile hb ho ht
  obtain ⟨d, hd, rfl⟩ := mem_map.mp ((hkeys k).mpr hk)
  obtain ⟨c, hc, e', hce, he'⟩ := foldlM_of_error (g := fun acc d o => applyOutcome acc d.1 o) hd
    ((hf d hd).trans he) (Eo, [])
  exact ⟨c.1, e', (hkeys c.1).mp (mem_map_of_mem hc), (hf c hc).symm.trans hce,
    by rw [heq, he', error_bind]⟩

/-- **A merge without conflicts** builds the map of the merged values. -/
theorem mergeWith_merged {val : Bytes → Option Bytes} (hout : ∀ k, get k Et ≠ get k Eb → ∃ o,
      outcomeAt reconcile (get k Eb) (get k Eo) (get k Et) = .ok o ∧
        o.row? = none ∧ o.value (get k Eo) = val k)
    (hval : ∀ k, get k Et = get k Eb → val k = get k Eo) :
    ∃ M, Ascending M ∧ (∀ k, get k M = val k) ∧ mergeWith B reconcile base ours theirs s =
        Prolly.build B M s >>= fun b => .ok (.merged b.1, b.2) := by
  choose! out hout using hout
  obtain ⟨keys, M, -, hkeys, hM, hin, hnot, heq⟩ :=
    mergeWith_of_ok (B := B) hb ho ht fun k hk => (hout k hk).1
  refine ⟨M, hM, fun k => ?_, ?_⟩
  · by_cases hk : get k Et = get k Eb
    · rw [hnot k hk, hval k hk]
    · rw [hin k hk, (hout k hk).2.2]
  · have hnil : (keys.filterMap fun k => (out k).row?) = [] :=
      filterMap_eq_nil_iff.mpr fun k hk => (hout k ((hkeys k).mp hk)).2.1
    rw [heq, hnil, isEmpty_nil, if_pos rfl]

/-- **A merge with conflicts** reports one row for each conflicting key, in the order of the keys. -/
theorem mergeWith_conflicts {key : Row → Bytes} {P : Bytes → Prop}
    (hout : ∀ k, get k Et ≠ get k Eb → ∃ o,
      outcomeAt reconcile (get k Eb) (get k Eo) (get k Et) = .ok o ∧
        (o.row?.isSome ↔ P k) ∧ ∀ row, o.row? = some row → key row = k)
    (hP : ∀ k, P k → get k Et ≠ get k Eb) (hex : ∃ k, P k) :
    ∃ rows, mergeWith B reconcile base ours theirs s = .ok (.conflicts rows, s) ∧
      (rows.map key).Pairwise (· < ·) ∧ ∀ k, k ∈ rows.map key ↔ P k := by
  choose! out hout using hout
  obtain ⟨keys, M, hsort, hkeys, -, -, -, heq⟩ :=
    mergeWith_of_ok (B := B) hb ho ht fun k hk => (hout k hk).1
  have hmap : (keys.filterMap fun k => (out k).row?).map key =
      keys.filter fun k => (out k).row?.isSome :=
    map_filterMap_eq_filter fun k hk => (hout k ((hkeys k).mp hk)).2.2
  have hmem : ∀ k, k ∈ (keys.filterMap fun k => (out k).row?).map key ↔ P k := by
    intro k
    rw [hmap, mem_filter, hkeys]
    exact ⟨fun h => (hout k h.1).2.1.mp h.2, fun h => ⟨hP k h, (hout k (hP k h)).2.1.mpr h⟩⟩
  refine ⟨_, ?_, hmap ▸ hsort.filter _, hmem⟩
  obtain ⟨k, hk⟩ := hex
  have hne : (keys.filterMap fun k => (out k).row?) ≠ [] := by
    intro hnil
    have := (hmem k).mpr hk
    rw [hnil] at this
    exact absurd this not_mem_nil
  rw [heq, if_neg (by simpa using hne)]

end Loop

/-! ## Row maps -/

def Schema.rowKey (schema : Schema) (row : Row) : Bytes := encodePkValues (schema.keyOf row)

/-- The entries are rows of the schema under their keys. -/
def RowMap (schema : Schema) (E : List (Bytes × Bytes)) : Prop :=
  ∀ e ∈ E, ∃ row, RowWf row ∧ schema.checkRow row = .ok () ∧ encodeRow row = .ok e.2 ∧
    schema.rowKey row = e.1

/-- The root of a row map that can be read. -/
structure TableRoot {D : Type} (schema : Schema) (read : D → Result (Node D))
    (root : Option D) (E : List (Bytes × Bytes)) : Prop extends Revision read root E where
  rows : RowMap schema E

/-- A row's bytes whose cells nest lists and maps at most 63 deep. -/
def Shallow (v : Bytes) : Prop :=
  ∀ row, RowWf row → encodeRow row = .ok v → ∀ c ∈ row, nestDepth c ≤ 63

variable {schema : Schema}

theorem RowMap.decodeRow {schema : Schema} {E : List (Bytes × Bytes)} (h : RowMap schema E)
    {k v : Bytes} (hv : get k E = some v) (hs : Shallow v) :
    ∃ row, RowWf row ∧ row.length = schema.arity ∧ encodeRow row = .ok v ∧
      schema.rowKey row = k ∧ Tabular.decodeRow schema v = .ok row := by
  obtain ⟨row, hw, hc, he, hk⟩ := h (k, v) (mem_of_get hv)
  have hl := length_of_checkRow hc
  exact ⟨row, hw, hl, he, hk, decodeRow_encodeRow hw hl (hs row hw he) he⟩

theorem decodeRow_deep (schema : Schema) (hs : ¬ Shallow v) :
    ∃ e, decodeRow schema v = .error e := by
  simp only [Shallow, not_forall] at hs
  obtain ⟨row, hw, he, c, hc, hn⟩ := hs
  cases hd : decodeRow schema v with
  | error e => exact ⟨e, rfl⟩
  | ok r => exact absurd hd (decodeRow_ne_ok schema hw (fun h => hn (h c hc)) he r)

theorem shallow_of_decodeRow {row : Row} (h : decodeRow schema v = .ok row) : Shallow v := by
  by_contra hs
  obtain ⟨e, he⟩ := decodeRow_deep schema hs
  exact absurd (h.symm.trans he) (by simp)

/-! ## The three-way law -/

section ThreeWay

variable {α : Type} {base ours theirs merged merged' : α}

/-- Both sides changed the value, and differently. -/
def Conflict (base ours theirs : α) : Prop := ours ≠ base ∧ theirs ≠ base ∧ ours ≠ theirs

/-- A merged value: what one side made of it where the other left it, the common value where both
agree. -/
structure ThreeWay (base ours theirs merged : α) : Prop where
  of_theirs_eq : theirs = base → merged = ours
  of_ours_eq : ours = base → merged = theirs
  of_eq : ours = theirs → merged = ours

theorem threeWay_ite [DecidableEq α] (base ours theirs : α) :
    ThreeWay base ours theirs (if theirs = base then ours else theirs) where
  of_theirs_eq h := if_pos h
  of_ours_eq h := by
    split_ifs with ht
    · rw [h, ht]
    · rfl
  of_eq h := by rw [h, ite_self]

theorem ThreeWay.unique (h : ThreeWay base ours theirs merged)
    (h' : ThreeWay base ours theirs merged') (hc : ¬ Conflict base ours theirs) :
    merged = merged' := by
  by_cases ho : ours = base
  · rw [h.of_ours_eq ho, h'.of_ours_eq ho]
  by_cases ht : theirs = base
  · rw [h.of_theirs_eq ht, h'.of_theirs_eq ht]
  by_cases hot : ours = theirs
  · rw [h.of_eq hot, h'.of_eq hot]
  · exact absurd ⟨ho, ht, hot⟩ hc

end ThreeWay

def ConflictAt (Eb Eo Et : List (Bytes × Bytes)) (k : Bytes) : Prop :=
  Conflict (OrdMap.get k Eb) (OrdMap.get k Eo) (OrdMap.get k Et)

/-- The entries `M` merge two changes of the entries `Eb`. -/
def MergedMap (Eb Eo Et M : List (Bytes × Bytes)) : Prop :=
  ∀ k, ThreeWay (OrdMap.get k Eb) (OrdMap.get k Eo) (OrdMap.get k Et) (OrdMap.get k M)

theorem MergedMap.unique {Eb Eo Et M M' : List (Bytes × Bytes)} (h : MergedMap Eb Eo Et M)
    (h' : MergedMap Eb Eo Et M') (hM : Ascending M) (hM' : Ascending M')
    (hc : ∀ k, ¬ ConflictAt Eb Eo Et k) : M = M' :=
  eq_of_get_eq hM hM' fun k => (h k).unique (h' k) (hc k)

section Rows

variable {D : Type} [DecidableEq D] [ToString D] {hash : Node D → D} {B : Bytes → ℕ → Bool}
  {schema : Schema} {s : MemoryStore hash} {base ours theirs : Option D}
  {Eb Eo Et : List (Bytes × Bytes)}

variable {o t : Option Bytes}

theorem outcomeAt_of_not_conflict
    {reconcile : (base ours theirs : Option Bytes) → Result Outcome}
    (hsame : ∀ b v, reconcile b v v = .ok .keep) {b : Option Bytes} (hc : ¬ Conflict b o t)
    (ht : t ≠ b) :
    ∃ out, outcomeAt reconcile b o t = .ok out ∧ out.row? = none ∧ out.value o = t := by
  by_cases hob : o = b
  · exact ⟨_, if_pos hob, rfl, rfl⟩
  · have hot : o = t := by
      by_contra hne
      exact hc ⟨hob, ht, hne⟩
    subst hot
    exact ⟨_, (if_neg hob).trans (hsame b o), rfl, rfl⟩

theorem reconcileRows_same (b v : Option Bytes) : reconcileRows schema b v v = .ok .keep :=
  if_pos rfl

theorem outcomeAt_rows_of_conflict {b : Option Bytes} (h : Conflict b o t) :
    outcomeAt (reconcileRows schema) b o t = reportConflict schema o t := by
  rw [outcomeAt, if_neg h.1, reconcileRows, if_neg h.2.2]

theorem or_of_ne (h : o ≠ t) : ∃ v, o.or t = some v := by
  cases o with
  | some v => exact ⟨v, rfl⟩
  | none => exact Option.ne_none_iff_exists'.mp (Ne.symm h)

variable {v : Bytes}

theorem reportConflict_shallow (ho : RowMap schema Eo) (ht : RowMap schema Et) {k : Bytes}
    (hv : (get k Eo).or (get k Et) = some v) (hs : Shallow v) :
    ∃ row, reportConflict schema (get k Eo) (get k Et) = .ok (.conflict row) ∧
      schema.rowKey row = k := by
  have hrow : ∃ row, schema.rowKey row = k ∧ decodeRow schema v = .ok row := by
    rcases Option.or_eq_some_iff.mp hv with h | ⟨-, h⟩
    · obtain ⟨row, -, -, -, hk, hd⟩ := ho.decodeRow h hs
      exact ⟨row, hk, hd⟩
    · obtain ⟨row, -, -, -, hk, hd⟩ := ht.decodeRow h hs
      exact ⟨row, hk, hd⟩
  obtain ⟨row, hk, hd⟩ := hrow
  exact ⟨row, by simp only [reportConflict, hv, hd, ok_bind], hk⟩

variable (schema) in
theorem reportConflict_deep (hv : o.or t = some v) (hs : ¬ Shallow v) :
    ∃ e, reportConflict schema o t = .error e := by
  obtain ⟨e, he⟩ := decodeRow_deep schema hs
  exact ⟨e, by simp only [reportConflict, hv, he, error_bind]⟩

section Revisions

variable (schema) (hb : Revision s.readNode base Eb) (ho : Revision s.readNode ours Eo)
  (ht : Revision s.readNode theirs Et)

include hb ho ht

theorem mergeRows_merged (hc : ∀ k, ¬ ConflictAt Eb Eo Et k) :
    ∃ M, Ascending M ∧ MergedMap Eb Eo Et M ∧ mergeRows B schema base ours theirs s =
        Prolly.build B M s >>= fun b => .ok (.merged b.1, b.2) := by
  have hout : ∀ k, get k Et ≠ get k Eb → ∃ o,
      outcomeAt (reconcileRows schema) (get k Eb) (get k Eo) (get k Et) =
        .ok o ∧ o.row? = none ∧ o.value (get k Eo) =
          if get k Et = get k Eb then get k Eo else get k Et := by
    intro k hk
    rw [if_neg hk]
    exact outcomeAt_of_not_conflict reconcileRows_same (hc k) hk
  obtain ⟨M, hM, hval, heq⟩ := mergeWith_merged (B := B) hb ho ht hout fun k hk => if_pos hk
  refine ⟨M, hM, fun k => ?_, heq⟩
  rw [hval k]
  exact threeWay_ite _ _ _

theorem mergeRows_merged_iff (hinj : Function.Injective hash) (hc : ∀ k, ¬ ConflictAt Eb Eo Et k) :
    (∃ root s' M, mergeRows B schema base ours theirs s = .ok (.merged root, s') ∧
      Prolly.entriesOf s'.readNode root = .ok M ∧ MergedMap Eb Eo Et M) ↔
    ∀ M, Ascending M → MergedMap Eb Eo Et M → (forest B maxDepth M).length ≤ 1 := by
  obtain ⟨M, hM, h3, heq⟩ := mergeRows_merged (B := B) schema hb ho ht hc
  rw [heq]
  constructor
  · rintro ⟨root, s', M₁, hm, hM₁, -⟩ M₂ hM₂ h3'
    obtain rfl := h3'.unique h3 hM₂ hM hc
    obtain ⟨⟨root', s''⟩, hbuild, hr⟩ := of_bind hm
    obtain ⟨h1, rfl⟩ := Prod.mk.inj (Except.ok.inj hr)
    obtain rfl := TableMerge.merged.inj h1
    have hrep := Prolly.represents_of_build hinj hM hbuild
    refine (Prolly.build_entries_iff hinj hM s).mp ⟨_, _, hbuild, ?_⟩
    rw [hM₁, (Prolly.represents_facts hrep hM₁).1]
  · intro hfit
    obtain ⟨root, s', hbuild, hent⟩ := (Prolly.build_entries_iff hinj hM s).mpr (hfit M hM h3)
    exact ⟨root, s', M, by rw [hbuild, ok_bind], hent, h3⟩

theorem mergeRows_error {k : Bytes} (hc : ConflictAt Eb Eo Et k)
    (hv : (get k Eo).or (get k Et) = some v) (hs : ¬ Shallow v) :
    ∃ e, mergeRows B schema base ours theirs s = .error e := by
  obtain ⟨e, he⟩ := reportConflict_deep schema hv hs
  obtain ⟨-, e', -, -, he'⟩ := mergeWith_of_error (B := B) hb ho ht hc.2.1
    ((outcomeAt_rows_of_conflict hc).trans he)
  exact ⟨e', he'⟩

end Revisions

theorem mergeRows_conflicts_iff (hb : TableRoot schema s.readNode base Eb)
    (ho : TableRoot schema s.readNode ours Eo) (ht : TableRoot schema s.readNode theirs Et)
    (hc : ∃ k, ConflictAt Eb Eo Et k) :
    (∃ rows, mergeRows B schema base ours theirs s = .ok (.conflicts rows, s) ∧
      (rows.map schema.rowKey).Pairwise (· < ·) ∧
      ∀ k, k ∈ rows.map schema.rowKey ↔ ConflictAt Eb Eo Et k) ↔
    ∀ k v, ConflictAt Eb Eo Et k → (get k Eo).or (get k Et) = some v → Shallow v := by
  constructor
  · rintro ⟨rows, heq, -⟩ k v hk hv
    by_contra hs
    obtain ⟨e, he⟩ := mergeRows_error (B := B) schema hb.toRevision ho.toRevision
      ht.toRevision hk hv hs
    exact absurd (heq.symm.trans he) (by simp)
  · intro hs
    refine mergeWith_conflicts hb.toRevision ho.toRevision ht.toRevision (fun k hk => ?_)
      (fun k hk => hk.2.1) hc
    by_cases hconf : ConflictAt Eb Eo Et k
    · obtain ⟨v, hv⟩ := or_of_ne hconf.2.2
      obtain ⟨row, hrow, hkey⟩ := reportConflict_shallow ho.rows ht.rows hv (hs k v hconf hv)
      refine ⟨_, (outcomeAt_rows_of_conflict hconf).trans hrow, by simp [Outcome.row?, hconf], ?_⟩
      rintro row' h
      cases h
      exact hkey
    · obtain ⟨out, hout, hrow, -⟩ := outcomeAt_of_not_conflict reconcileRows_same hconf hk
      exact ⟨out, hout, by simp [hrow, hconf], by simp [hrow]⟩

/-- **The row-level merge** follows the three-way law and reports every conflicting key, exactly
when the rows to report nest at most 63 deep and the merged tree is at most `maxDepth` high. -/
theorem mergeRows_iff (hinj : Function.Injective hash) (hb : TableRoot schema s.readNode base Eb)
    (ho : TableRoot schema s.readNode ours Eo) (ht : TableRoot schema s.readNode theirs Et) :
    (((∀ k, ¬ ConflictAt Eb Eo Et k) →
        ∃ root s' M, mergeRows B schema base ours theirs s = .ok (.merged root, s') ∧
          Prolly.entriesOf s'.readNode root = .ok M ∧ MergedMap Eb Eo Et M) ∧
      ((∃ k, ConflictAt Eb Eo Et k) →
        ∃ rows, mergeRows B schema base ours theirs s = .ok (.conflicts rows, s) ∧
          (rows.map schema.rowKey).Pairwise (· < ·) ∧
          ∀ k, k ∈ rows.map schema.rowKey ↔ ConflictAt Eb Eo Et k)) ↔
    (∀ k v, ConflictAt Eb Eo Et k → (OrdMap.get k Eo).or (OrdMap.get k Et) = some v → Shallow v) ∧
    ((∀ k, ¬ ConflictAt Eb Eo Et k) →
      ∀ M, Ascending M → MergedMap Eb Eo Et M → (forest B maxDepth M).length ≤ 1) := by
  by_cases hc : ∃ k, ConflictAt Eb Eo Et k
  · have hno : ¬ ∀ k, ¬ ConflictAt Eb Eo Et k := not_forall_not.mpr hc
    rw [← mergeRows_conflicts_iff hb ho ht hc]
    exact ⟨fun h => ⟨h.2 hc, fun h' => absurd h' hno⟩,
      fun h => ⟨fun h' => absurd h' hno, fun _ => h.1⟩⟩
  · have hno : ∀ k, ¬ ConflictAt Eb Eo Et k := not_exists.mp hc
    rw [← mergeRows_merged_iff schema hb.toRevision ho.toRevision ht.toRevision hinj hno]
    exact ⟨fun h => ⟨fun k _ hk => absurd hk (hno k), h.1⟩, fun h => ⟨h.2, fun h' => absurd h' hc⟩⟩

end Rows

/-! ## A conflict that cannot be reported -/

theorem tableRoot_leaf {D : Type} {read : D → Result (Node D)} {d : D}
    {E : List (Bytes × Bytes)} (hd : read d = .ok (.leaf E)) (hne : E ≠ []) (hE : Ascending E)
    (hrows : RowMap schema E) : TableRoot schema read (some d) E where
  represents := ⟨0, E, hd, hne, rfl, hE⟩
  readable := by rw [Prolly.entriesOf, Prolly.entries, Prolly.collectEntries, hd, ok_bind]
  rows := hrows

theorem tableRoot_none {D : Type} (schema : Schema) {read : D → Result (Node D)} :
    TableRoot schema read none [] where
  represents := rfl
  readable := rfl
  rows := nofun

def idOne : Bytes := [2, 0x80, 0, 0, 0, 0, 0, 0, 1]

def plainBytes : Bytes := [0x82, 0x82, 2, 1, 0x81, 0]

def nestedBytes : Bytes := [0x82, 0x82, 2, 1, 0x82, 0x18, 24, 0x81, 0x81, 0]

theorem rowMap_tagged (n : ℕ) (h : encodeRow [.int 1, deepList n] = .ok v) :
    RowMap taggedSchema [(idOne, v)] := by
  intro e he
  obtain rfl := mem_singleton.mp he
  exact ⟨[.int 1, deepList n], taggedRow_wf n, by cases n <;> rfl, h, rfl⟩

def leavesStore : List (List (Bytes × Bytes)) → Prolly.FreeStore
  | [] => MemoryStore.new
  | es :: rest => ((leavesStore rest).put (.leaf es)).2

theorem readNode_leavesStore {es : List (Bytes × Bytes)} {ess : List (List (Bytes × Bytes))}
    (h : es ∈ ess) : (leavesStore ess).readNode (.leaf es) = .ok (.leaf es) := by
  induction ess with
  | nil => exact absurd h not_mem_nil
  | cons fs rest ih =>
    rcases mem_cons.mp h with rfl | h
    · exact Prolly.readNode_eq_ok.mpr
        (Prolly.objects_put Prolly.FreeDigest.ofNode_injective (.leaf es) _)
    · exact Prolly.readNode_mono (Prolly.le_put _ _) _ _ (ih h)

theorem tableRoot_single (ess : List (List (Bytes × Bytes))) (h : [(k, v)] ∈ ess)
    (hrows : RowMap schema [(k, v)]) :
    TableRoot schema (leavesStore ess).readNode (some (.leaf [(k, v)])) [(k, v)] :=
  tableRoot_leaf (readNode_leavesStore h) (cons_ne_nil _ _) (pairwise_singleton _ _) hrows

/-- The two sides add different rows under one key, and the merge reports it. -/
theorem mergeRows_reports :
    ∃ rows, mergeRows (fun _ _ => false) taggedSchema none (some (.leaf [(idOne, plainBytes)]))
        (some (.leaf [(idOne, nestedBytes)]))
        (leavesStore [[(idOne, plainBytes)], [(idOne, nestedBytes)]]) =
      .ok (.conflicts rows, leavesStore [[(idOne, plainBytes)], [(idOne, nestedBytes)]]) ∧
    ∀ k, k ∈ rows.map taggedSchema.rowKey ↔ k = idOne := by
  have hconf : ConflictAt [] [(idOne, plainBytes)] [(idOne, nestedBytes)] idOne := by
    refine ⟨?_, ?_, ?_⟩ <;> decide
  have honly : ∀ k, ConflictAt [] [(idOne, plainBytes)] [(idOne, nestedBytes)] k → k = idOne := by
    rintro k ⟨h, -⟩
    by_contra hne
    exact h (by simp [OrdMap.get, Ne.symm hne])
  have ho := tableRoot_single (v := plainBytes) [[(idOne, plainBytes)], [(idOne, nestedBytes)]]
    (by simp) (rowMap_tagged 0 rfl)
  have ht := tableRoot_single (v := nestedBytes) [[(idOne, plainBytes)], [(idOne, nestedBytes)]]
    (by simp) (rowMap_tagged 1 rfl)
  obtain ⟨-, hreport⟩ := (mergeRows_iff (B := fun _ _ => false) Prolly.FreeDigest.ofNode_injective
    (tableRoot_none taggedSchema) ho ht).mpr ⟨fun k v hk hv => by
      obtain rfl := honly k hk
      obtain rfl : plainBytes = v := Option.some.inj hv
      exact shallow_of_decodeRow (show decodeRow taggedSchema plainBytes = _ from rfl), fun h => absurd hconf (h _)⟩
  obtain ⟨rows, hm, -, hkeys⟩ := hreport ⟨_, hconf⟩
  refine ⟨rows, hm, fun k => (hkeys k).trans ⟨honly k, ?_⟩⟩
  rintro rfl
  exact hconf

/-- The two sides add different rows under one key, and the merge fails on reading ours' row. -/
theorem mergeRows_deep_conflict : TableRoot taggedSchema
      (leavesStore [[(idOne, deepBytes)], [(idOne, plainBytes)]]).readNode
      (some (.leaf [(idOne, deepBytes)])) [(idOne, deepBytes)] ∧
    TableRoot taggedSchema (leavesStore [[(idOne, deepBytes)], [(idOne, plainBytes)]]).readNode
      (some (.leaf [(idOne, plainBytes)])) [(idOne, plainBytes)] ∧
    ConflictAt [] [(idOne, deepBytes)] [(idOne, plainBytes)] idOne ∧
    mergeRows (fun _ _ => false) taggedSchema none (some (.leaf [(idOne, deepBytes)]))
        (some (.leaf [(idOne, plainBytes)]))
        (leavesStore [[(idOne, deepBytes)], [(idOne, plainBytes)]]) =
      .error (.corrupt "cbor: nesting deeper than MAX_DEPTH") := by
  have ho := tableRoot_single [[(idOne, deepBytes)], [(idOne, plainBytes)]] (by simp)
    (rowMap_tagged 64 encodeRow_deepList)
  have ht := tableRoot_single (v := plainBytes) [[(idOne, deepBytes)], [(idOne, plainBytes)]] (by simp)
    (rowMap_tagged 0 rfl)
  have hconf : ConflictAt [] [(idOne, deepBytes)] [(idOne, plainBytes)] idOne := by
    refine ⟨nofun, nofun, ?_⟩
    decide
  have hreport : reportConflict taggedSchema (some deepBytes) (some plainBytes) =
      .error (.corrupt "cbor: nesting deeper than MAX_DEPTH") := by
    simp only [reportConflict, Option.some_or, decodeRow_deepBytes, error_bind]
  obtain ⟨k, e, hk, he, hm⟩ := mergeWith_of_error (B := fun _ _ => false)
    (tableRoot_none taggedSchema).toRevision ho.toRevision ht.toRevision hconf.2.1
    ((outcomeAt_rows_of_conflict hconf).trans hreport)
  -- the only key theirs changed is the one in conflict
  obtain rfl : idOne = k := by
    by_contra hne
    exact hk (get_eq_none.mpr fun e he => by rwa [mem_singleton.mp he])
  obtain rfl := Except.error.inj (((outcomeAt_rows_of_conflict hconf).trans hreport).symm.trans he)
  exact ⟨ho, ht, hconf, hm⟩

end UldrenLoom.Tabular
