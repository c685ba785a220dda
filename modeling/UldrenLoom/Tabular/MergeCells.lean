import UldrenLoom.Tabular.KeyOrder
import UldrenLoom.Tabular.MergeRows

/-!
# The cell-level merge

* **`mergeRowsCells_symm_iff`**: when the two orders of the merge give the same result.
-/

namespace UldrenLoom.Tabular

open ByteString Fallible Lists OrdMap LevelTree List Value
open Prolly (Node MemoryStore DiffEntry Represents)

/-! ## Cells -/

variable {w b o t : Value}

/-- **Cells compare as equal exactly when they have the same key bytes.** -/
theorem Value.eq_iff {v : Value} : v.eq w = true ↔ encodeKeyValue v = encodeKeyValue w := by
  rw [Value.eq, beq_iff_eq, cmp_eq_cmpBytes]
  exact Std.LawfulEqCmp.compare_eq_iff_eq

theorem Value.eq_comm {v : Value} : v.eq w = true ↔ w.eq v = true := by
  rw [eq_iff, eq_iff]
  exact ⟨Eq.symm, Eq.symm⟩

theorem Value.eq_trans {u v : Value} (h : u.eq v = true) (h' : v.eq w = true) :
    u.eq w = true := eq_iff.mpr ((eq_iff.mp h).trans (eq_iff.mp h'))

/-- Both sides changed the cell, and differently, as far as the comparison of cells tells. -/
def CellConflict (b o t : Value) : Prop := ¬ o.eq b ∧ ¬ t.eq b ∧ ¬ o.eq t

theorem CellConflict.symm (h : CellConflict b o t) : CellConflict b t o :=
  ⟨h.2.1, h.1, fun hto => h.2.2 (eq_comm.mp hto)⟩

theorem mergeCell_eq_none : mergeCell b o t = none ↔ CellConflict b o t := by
  unfold mergeCell CellConflict
  split_ifs with hot hob htb
  · simp [hot]
  · simp [hob]
  · simp [htb]
  · simp [hot, hob, htb]

theorem mergeCell_mem {c : Value} (h : mergeCell b o t = some c) : c = o ∨ c = t := by
  unfold mergeCell at h
  split_ifs at h
  · exact .inl (Option.some.inj h).symm
  · exact .inr (Option.some.inj h).symm
  · exact .inl (Option.some.inj h).symm

theorem mergeCell_swap {c c' : Value} (h : mergeCell b o t = some c)
    (h' : mergeCell b t o = some c') : c = c' ↔ (o.eq t = true → o = t) := by
  unfold mergeCell at h h'
  by_cases hot : o.eq t = true
  · rw [if_pos hot] at h
    rw [if_pos (Value.eq_comm.mp hot)] at h'
    cases h
    cases h'
    exact ⟨fun h _ => h, fun h => h hot⟩
  · have hto : ¬ t.eq o = true := fun h => hot (Value.eq_comm.mp h)
    rw [if_neg hot] at h
    rw [if_neg hto] at h'
    refine ⟨fun _ h => absurd h hot, fun _ => ?_⟩
    by_cases hob : o.eq b = true
    · -- only theirs changed the cell: both orders take theirs
      have htb : ¬ t.eq b = true := fun h => hot (Value.eq_trans hob (Value.eq_comm.mp h))
      rw [if_pos hob] at h
      rw [if_neg htb, if_pos hob] at h'
      exact Option.some.inj (h.symm.trans h')
    · rw [if_neg hob] at h h'
      exact Option.some.inj (h.symm.trans (by simpa using h'))

/-! ## Rows -/

/-- Every column of three rows has the property. -/
def AllColumns (P : Value → Value → Value → Prop) : (base ours theirs : Row) → Prop
  | b :: bs, o :: os, t :: ts => P b o t ∧ AllColumns P bs os ts
  | _, _, _ => True

theorem allColumns_swap {P Q : Value → Value → Value → Prop} (h : ∀ b o t, P b o t → Q b t o) :
    ∀ {b o t : Row}, AllColumns P b o t → AllColumns Q b t o
  | [], _, _, _ => by simp [AllColumns]
  | _ :: _, [], [], _ | _ :: _, [], _ :: _, _ | _ :: _, _ :: _, [], _ => by simp [AllColumns]
  | _ :: _, _ :: _, _ :: _, ⟨hP, hrest⟩ => ⟨h _ _ _ hP, allColumns_swap h hrest⟩

variable {row : Row}

theorem mergeCells_cons {bs os ts : Row} : mergeCells (b :: bs) (o :: os) (t :: ts) = some row ↔
      ∃ c rest, mergeCell b o t = some c ∧ mergeCells bs os ts = some rest ∧ c :: rest = row := by
  simp [mergeCells, Option.bind_eq_some_iff]

/-- **Rows merge exactly when no column was changed differently by both sides.** -/
theorem mergeCells_isSome : ∀ {b o t : Row}, (∃ row, mergeCells b o t = some row) ↔
    AllColumns (fun b o t => ¬ CellConflict b o t) b o t
  | [], _, _ | _ :: _, [], _ | _ :: _, _ :: _, [] => by simp [mergeCells, AllColumns]
  | b :: bs, o :: os, t :: ts => by
    rw [AllColumns, ← mergeCells_isSome, ← mergeCell_eq_none, ← ne_eq, Option.ne_none_iff_exists']
    simp only [mergeCells_cons]
    constructor
    · rintro ⟨row, c, rest, hc, hrest, -⟩
      exact ⟨⟨c, hc⟩, rest, hrest⟩
    · rintro ⟨⟨c, hc⟩, rest, hrest⟩
      exact ⟨_, c, rest, hc, hrest, rfl⟩

theorem mergeCells_mem : ∀ {b o t row : Row}, mergeCells b o t = some row → ∀ c ∈ row, c ∈ o ∨ c ∈ t
  | [], _, _, _, h | _ :: _, [], _, _, h | _ :: _, _ :: _, [], _, h => by
    cases h
    simp
  | b :: bs, o :: os, t :: ts, _, h => by
    obtain ⟨c, rest, hc, hrest, rfl⟩ := mergeCells_cons.mp h
    intro x hx
    rcases mem_cons.mp hx with rfl | hx
    · rcases mergeCell_mem hc with rfl | rfl <;> simp
    · rcases mergeCells_mem hrest x hx with hm | hm <;> simp [hm]

theorem mergeCells_length : ∀ {b o t row : Row}, mergeCells b o t = some row →
    b.length = o.length → b.length = t.length → row.length = b.length
  | [], _, _, _, h, _, _ => by
    cases h
    rfl
  | _ :: _, [], _, _, _, ho, _ => absurd ho (by simp)
  | _ :: _, _ :: _, [], _, _, _, ht => absurd ht (by simp)
  | b :: bs, o :: os, t :: ts, _, h, ho, ht => by
    obtain ⟨c, rest, hc, hrest, rfl⟩ := mergeCells_cons.mp h
    rw [length_cons, length_cons, mergeCells_length hrest (Nat.succ.inj ho) (Nat.succ.inj ht)]

/-- Both orders merge a row alike exactly when the cells that compare as equal are identical. -/
theorem mergeCells_swap : ∀ {b o t row row' : Row}, mergeCells b o t = some row →
    mergeCells b t o = some row' →
      (row = row' ↔ AllColumns (fun _ o t => o.eq t = true → o = t) b o t)
  | [], _, _, _, _, h, h' | _ :: _, [], [], _, _, h, h' | _ :: _, [], _ :: _, _, _, h, h'
  | _ :: _, _ :: _, [], _, _, h, h' => by
    cases h
    cases h'
    simp [AllColumns]
  | b :: bs, o :: os, t :: ts, _, _, h, h' => by
    obtain ⟨c, rest, hc, hrest, rfl⟩ := mergeCells_cons.mp h
    obtain ⟨c', rest', hc', hrest', rfl⟩ := mergeCells_cons.mp h'
    rw [AllColumns, ← mergeCell_swap hc hc', ← mergeCells_swap hrest hrest', List.cons.injEq]

theorem wfItems_of_forall {vs : List Value} (h : ∀ v ∈ vs, v.Wf) : WfItems vs := by
  induction vs with
  | nil => trivial
  | cons v vs ih => exact ⟨h v (by simp), ih fun w hw => h w (by simp [hw])⟩

theorem mergeCells_wf {b o t : Row} (h : mergeCells b o t = some row) (hb : RowWf b)
    (ho : RowWf o) (ht : RowWf t) (hbo : b.length = o.length) (hbt : b.length = t.length) :
    RowWf row := by
  refine ⟨mergeCells_length h hbo hbt ▸ hb.1, wfItems_of_forall fun c hc => ?_⟩
  rcases mergeCells_mem h c hc with hm | hm
  · exact ho.2.wf hm
  · exact ht.2.wf hm

/-! ## What happens to a key -/

/-- The bytes are there and decode to the row. -/
def IsRow (schema : Schema) (v : Option Bytes) (row : Row) : Prop :=
  ∃ bytes, v = some bytes ∧ decodeRow schema bytes = .ok row

variable {schema : Schema}

theorem IsRow.unique {v : Option Bytes} {row' : Row} (h : IsRow schema v row)
    (h' : IsRow schema v row') : row = row' := by
  obtain ⟨bytes, rfl, hd⟩ := h
  obtain ⟨bytes', hb, hd'⟩ := h'
  cases hb
  exact Except.ok.inj (hd.symm.trans hd')

/-- All three revisions have a row, and no column was changed differently by both sides. -/
def Reconcilable (schema : Schema) (vb vo vt : Option Bytes) : Prop :=
  ∃ b o t, IsRow schema vb b ∧ IsRow schema vo o ∧ IsRow schema vt t ∧
    AllColumns (fun b o t => ¬ CellConflict b o t) b o t

variable {vb vo vt : Option Bytes}

theorem Reconcilable.symm {schema : Schema} {vb vo vt : Option Bytes}
    (h : Reconcilable schema vb vo vt) : Reconcilable schema vb vt vo := by
  obtain ⟨b, o, t, hb, ho, ht, hcol⟩ := h
  exact ⟨b, t, o, hb, ht, ho, allColumns_swap (fun _ _ _ h h' => h h'.symm) hcol⟩

/-- Cells that compare as equal in ours and theirs are identical. -/
def ExactCells (schema : Schema) (vb vo vt : Option Bytes) : Prop :=
  ∀ b o t, IsRow schema vb b → IsRow schema vo o → IsRow schema vt t →
    AllColumns (fun _ o t => o.eq t = true → o = t) b o t

/-- The bytes of the row merged column by column. -/
def CellsValue (schema : Schema) (vb vo vt : Option Bytes) (v : Bytes) : Prop :=
  ∃ b o t row, IsRow schema vb b ∧ IsRow schema vo o ∧ IsRow schema vt t ∧
    mergeCells b o t = some row ∧ encodeRow row = .ok v

variable {v : Bytes}

theorem CellsValue.unique {schema : Schema} {vb vo vt : Option Bytes} {v v' : Bytes}
    (h : CellsValue schema vb vo vt v) (h' : CellsValue schema vb vo vt v') : v = v' := by
  obtain ⟨b, o, t, row, hb, ho, ht, hm, he⟩ := h
  obtain ⟨b', o', t', row', hb', ho', ht', hm', he'⟩ := h'
  obtain rfl := hb.unique hb'
  obtain rfl := ho.unique ho'
  obtain rfl := ht.unique ht'
  cases hm.symm.trans hm'
  exact Except.ok.inj (he.symm.trans he')

/-- The rows that the merge reads under a conflicting key nest at most 63 deep. -/
def Legible (vb vo vt : Option Bytes) : Prop :=
  (∀ v, vo.or vt = some v → Shallow v) ∧
  ∀ b o t, vb = some b → vo = some o → vt = some t → Shallow b ∧ Shallow t

theorem shallow_of_reportConflict {out : Outcome} (h : reportConflict schema vo vt = .ok out)
    (hv : vo.or vt = some v) : Shallow v := by
  by_contra hs
  obtain ⟨e, he⟩ := reportConflict_deep schema hv hs
  exact absurd (h.symm.trans he) (by simp)

theorem outcomeAt_cells {b o t : Bytes} (hc : Conflict (some b) (some o) (some t)) :
    outcomeAt (reconcileCells schema) (some b) (some o) (some t) =
      decodeRow schema b >>= fun base => decodeRow schema o >>= fun ours =>
      decodeRow schema t >>= fun theirs =>
      match mergeCells base ours theirs with
      | some row => encodeRow row >>= fun bytes => .ok (.assign (some bytes))
      | none => .ok (.conflict theirs) :=
  (if_neg hc.1).trans (if_neg hc.2.2)

theorem outcomeAt_cells_absent (hc : Conflict vb vo vt) (h : vb = none ∨ vo = none ∨ vt = none) :
    outcomeAt (reconcileCells schema) vb vo vt = reportConflict schema vo vt := by
  unfold outcomeAt reconcileCells
  rw [if_neg hc.1, if_neg hc.2.2]
  match vb, vo, vt with
  | some b, some o, some t => simp at h
  | none, _, _ | some _, none, _ | some _, some _, none => rfl

theorem legible_of_ok (hc : Conflict vb vo vt) {out : Outcome}
    (h : outcomeAt (reconcileCells schema) vb vo vt = .ok out) : Legible vb vo vt := by
  by_cases habs : vb = none ∨ vo = none ∨ vt = none
  · rw [outcomeAt_cells_absent hc habs] at h
    refine ⟨fun v hv => shallow_of_reportConflict h hv, ?_⟩
    rintro b o t rfl rfl rfl
    simp at habs
  · simp only [not_or, ← ne_eq, Option.ne_none_iff_exists'] at habs
    obtain ⟨⟨b, rfl⟩, ⟨o, rfl⟩, t, rfl⟩ := habs
    rw [outcomeAt_cells hc] at h
    obtain ⟨base, hb, h⟩ := of_bind h
    obtain ⟨ours, ho, h⟩ := of_bind h
    obtain ⟨theirs, ht, -⟩ := of_bind h
    refine ⟨fun v hv => ?_, ?_⟩
    · cases hv
      exact shallow_of_decodeRow ho
    · rintro _ _ _ ⟨⟩ ⟨⟩ ⟨⟩
      exact ⟨shallow_of_decodeRow hb, shallow_of_decodeRow ht⟩

section Key

variable {schema : Schema} {Eb Eo Et : List (Bytes × Bytes)} {k : Bytes}

/-- **What happens to a conflicting key** whose rows can be read. -/
theorem outcomeAt_cells_legible (hb : RowMap schema Eb) (ho : RowMap schema Eo)
    (ht : RowMap schema Et) (hc : ConflictAt Eb Eo Et k)
    (hl : Legible (get k Eb) (get k Eo) (get k Et)) :
    (Reconcilable schema (get k Eb) (get k Eo) (get k Et) ∧ ∃ v,
      CellsValue schema (get k Eb) (get k Eo) (get k Et) v ∧
      outcomeAt (reconcileCells schema) (get k Eb) (get k Eo) (get k Et) = .ok (.assign (some v))) ∨
    (¬ Reconcilable schema (get k Eb) (get k Eo) (get k Et) ∧ ∃ row, schema.rowKey row = k ∧
      outcomeAt (reconcileCells schema) (get k Eb) (get k Eo) (get k Et) =
        .ok (.conflict row)) := by
  by_cases habs : get k Eb = none ∨ get k Eo = none ∨ get k Et = none
  · obtain ⟨v, hv⟩ := or_of_ne hc.2.2
    obtain ⟨row, hrow, hk⟩ := reportConflict_shallow ho ht hv (hl.1 v hv)
    refine .inr ⟨?_, row, hk, (outcomeAt_cells_absent hc habs).trans hrow⟩
    rintro ⟨-, -, -, ⟨b, hb, -⟩, ⟨o, ho, -⟩, ⟨t, ht, -⟩, -⟩
    simp [hb, ho, ht] at habs
  · simp only [not_or, ← ne_eq, Option.ne_none_iff_exists'] at habs
    obtain ⟨⟨b, hvb⟩, ⟨o, hvo⟩, t, hvt⟩ := habs
    obtain ⟨hsb, hst⟩ := hl.2 b o t hvb hvo hvt
    obtain ⟨base, hwb, hlb, -, -, hdb⟩ := hb.decodeRow hvb hsb
    obtain ⟨ours, hwo, hlo, -, -, hdo⟩ := ho.decodeRow hvo (hl.1 o (by rw [hvo, Option.some_or]))
    obtain ⟨theirs, hwt, hlt, -, hkt, hdt⟩ := ht.decodeRow hvt hst
    have hc' : Conflict (some b) (some o) (some t) := by
      rw [← hvb, ← hvo, ← hvt]
      exact hc
    rw [hvb, hvo, hvt, outcomeAt_cells hc', hdb, ok_bind, hdo, ok_bind, hdt, ok_bind]
    have hrb : IsRow schema (some b) base := ⟨b, rfl, hdb⟩
    have hro : IsRow schema (some o) ours := ⟨o, rfl, hdo⟩
    have hrt : IsRow schema (some t) theirs := ⟨t, rfl, hdt⟩
    cases hm : mergeCells base ours theirs with
    | some row =>
      have hw := mergeCells_wf hm hwb hwo hwt (hlb.trans hlo.symm) (hlb.trans hlt.symm)
      obtain ⟨v, hv⟩ := encodeRow_ok hw
      exact .inl ⟨⟨base, ours, theirs, hrb, hro, hrt, mergeCells_isSome.mp ⟨row, hm⟩⟩, v,
        ⟨base, ours, theirs, row, hrb, hro, hrt, hm, hv⟩, by simp only [hv, ok_bind]⟩
    | none =>
      refine .inr ⟨?_, theirs, hkt, rfl⟩
      rintro ⟨b', o', t', hb', ho', ht', hcol⟩
      rw [hb'.unique hrb, ho'.unique hro, ht'.unique hrt] at hcol
      obtain ⟨row, hrow⟩ := mergeCells_isSome.mpr hcol
      exact absurd (hm.symm.trans hrow) (by simp)

end Key

/-! ## The merge -/

/-- The entries `M` merge two changes of the entries `Eb`, rows in conflict column by column. -/
def CellMergedMap (schema : Schema) (Eb Eo Et M : List (Bytes × Bytes)) : Prop :=
  ∀ k, (¬ ConflictAt Eb Eo Et k →
      ThreeWay (OrdMap.get k Eb) (OrdMap.get k Eo) (OrdMap.get k Et) (OrdMap.get k M)) ∧
    (ConflictAt Eb Eo Et k → ∃ v,
      CellsValue schema (OrdMap.get k Eb) (OrdMap.get k Eo) (OrdMap.get k Et) v ∧
      OrdMap.get k M = some v)

theorem CellMergedMap.unique {schema : Schema} {Eb Eo Et M M' : List (Bytes × Bytes)}
    (h : CellMergedMap schema Eb Eo Et M) (h' : CellMergedMap schema Eb Eo Et M')
    (hM : Ascending M) (hM' : Ascending M') : M = M' := by
  refine eq_of_get_eq hM hM' fun k => ?_
  by_cases hc : ConflictAt Eb Eo Et k
  · obtain ⟨v, hv, hk⟩ := (h k).2 hc
    obtain ⟨v', hv', hk'⟩ := (h' k).2 hc
    rw [hk, hk', hv.unique hv']
  · exact ((h k).1 hc).unique ((h' k).1 hc) hc

theorem ThreeWay.symm {α : Type} {base ours theirs merged : α}
    (h : ThreeWay base ours theirs merged) : ThreeWay base theirs ours merged :=
  ⟨h.of_ours_eq, h.of_theirs_eq, fun heq => (h.of_eq heq.symm).trans heq.symm⟩

theorem ConflictAt.symm {Eb Eo Et : List (Bytes × Bytes)} {k : Bytes}
    (h : ConflictAt Eb Eo Et k) : ConflictAt Eb Et Eo k := ⟨h.2.1, h.1, h.2.2.symm⟩

section Cells

variable {D : Type} [DecidableEq D] [ToString D] {hash : Node D → D} {B : Bytes → ℕ → Bool}
  {schema : Schema} {s : MemoryStore hash} {base ours theirs : Option D}
  {Eb Eo Et : List (Bytes × Bytes)}

theorem reconcileCells_same (b v : Option Bytes) : reconcileCells schema b v v = .ok .keep :=
  if_pos rfl

variable {k : Bytes}

variable (schema) in
theorem mergeRowsCells_error (hb : Revision s.readNode base Eb) (ho : Revision s.readNode ours Eo)
    (ht : Revision s.readNode theirs Et) (hc : ConflictAt Eb Eo Et k)
    (hl : ¬ Legible (get k Eb) (get k Eo) (get k Et)) :
    ∃ e, mergeRowsCells B schema base ours theirs s = .error e := by
  cases hout : outcomeAt (reconcileCells schema) (get k Eb) (get k Eo) (get k Et) with
  | ok out => exact absurd (legible_of_ok hc hout) hl
  | error e =>
    obtain ⟨-, e', -, -, he⟩ := mergeWith_of_error (B := B) hb ho ht hc.2.1 hout
    exact ⟨e', he⟩

section Tables

variable (hb : TableRoot schema s.readNode base Eb) (ho : TableRoot schema s.readNode ours Eo)
  (ht : TableRoot schema s.readNode theirs Et)

include hb ho ht

theorem mergeRowsCells_merged (hl : ∀ k, ConflictAt Eb Eo Et k →
      Legible (get k Eb) (get k Eo) (get k Et))
    (hr : ∀ k, ConflictAt Eb Eo Et k → Reconcilable schema (get k Eb) (get k Eo) (get k Et)) :
    ∃ M, Ascending M ∧ CellMergedMap schema Eb Eo Et M ∧
      mergeRowsCells B schema base ours theirs s =
        Prolly.build B M s >>= fun b => .ok (.merged b.1, b.2) := by
  have hval : ∀ k, ∃ w, (get k Et ≠ get k Eb → ∃ out,
      outcomeAt (reconcileCells schema) (get k Eb) (get k Eo) (get k Et) =
        .ok out ∧ out.row? = none ∧ out.value (get k Eo) = w) ∧
      (get k Et = get k Eb → w = get k Eo) ∧
      (¬ ConflictAt Eb Eo Et k → ThreeWay (get k Eb) (get k Eo) (get k Et) w) ∧
      (ConflictAt Eb Eo Et k → ∃ v,
        CellsValue schema (get k Eb) (get k Eo) (get k Et) v ∧ w = some v) := by
    intro k
    by_cases hc : ConflictAt Eb Eo Et k
    · rcases outcomeAt_cells_legible hb.rows ho.rows ht.rows hc (hl k hc) with
        ⟨-, v, hv, hout⟩ | ⟨hn, -⟩
      · exact ⟨some v, fun _ => ⟨_, hout, rfl, rfl⟩, fun h => absurd h hc.2.1,
          fun h => absurd hc h, fun _ => ⟨v, hv, rfl⟩⟩
      · exact absurd (hr k hc) hn
    · refine ⟨_, fun hk => ?_, fun hk => if_pos hk, fun _ => threeWay_ite _ _ _,
        fun h => absurd h hc⟩
      rw [if_neg hk]
      exact outcomeAt_of_not_conflict reconcileCells_same hc hk
  choose val hout heq h3 hcv using hval
  obtain ⟨M, hM, hget, hmerge⟩ := mergeWith_merged (B := B) hb.toRevision ho.toRevision
    ht.toRevision hout heq
  exact ⟨M, hM, fun k => hget k ▸ ⟨h3 k, hcv k⟩, hmerge⟩

theorem mergeRowsCells_conflicts (hl : ∀ k, ConflictAt Eb Eo Et k →
      Legible (get k Eb) (get k Eo) (get k Et))
    (hex : ∃ k, ConflictAt Eb Eo Et k ∧ ¬ Reconcilable schema (get k Eb) (get k Eo) (get k Et)) :
    ∃ rows, mergeRowsCells B schema base ours theirs s = .ok (.conflicts rows, s) ∧
      (rows.map schema.rowKey).Pairwise (· < ·) ∧ ∀ k, k ∈ rows.map schema.rowKey ↔
        ConflictAt Eb Eo Et k ∧
        ¬ Reconcilable schema (get k Eb) (get k Eo) (get k Et) := by
  refine mergeWith_conflicts hb.toRevision ho.toRevision ht.toRevision (fun k hk => ?_)
    (fun k hk => hk.1.2.1) hex
  by_cases hc : ConflictAt Eb Eo Et k
  · rcases outcomeAt_cells_legible hb.rows ho.rows ht.rows hc (hl k hc) with
      ⟨hr, v, -, hout⟩ | ⟨hr, row, hkey, hout⟩
    · exact ⟨_, hout, by simp [Outcome.row?, hr], nofun⟩
    · refine ⟨_, hout, by simp [Outcome.row?, hc, hr], ?_⟩
      rintro row' h
      cases h
      exact hkey
  · obtain ⟨out, hout, hrow, -⟩ := outcomeAt_of_not_conflict reconcileCells_same hc hk
    exact ⟨out, hout, by simp [hrow, hc], by simp [hrow]⟩

/-- **A clean row-level merge is also the cell-level merge.** -/
theorem mergeRowsCells_of_merged {root : Option D} {s' : MemoryStore hash}
    (h : mergeRows B schema base ours theirs s = .ok (.merged root, s')) :
    mergeRowsCells B schema base ours theirs s = .ok (.merged root, s') := by
  have hno : ∀ k, ¬ ConflictAt Eb Eo Et k := by
    intro k hk
    by_cases hs : ∀ k v, ConflictAt Eb Eo Et k → (get k Eo).or (get k Et) = some v → Shallow v
    · obtain ⟨rows, hrows, -⟩ := (mergeRows_conflicts_iff (B := B) hb ho ht ⟨k, hk⟩).mpr hs
      exact absurd (h.symm.trans hrows) (by simp)
    · simp only [not_forall] at hs
      obtain ⟨k', v, hk', hv, hs⟩ := hs
      obtain ⟨e, he⟩ := mergeRows_error (B := B) schema hb.toRevision ho.toRevision
        ht.toRevision hk' hv hs
      exact absurd (h.symm.trans he) (by simp)
  obtain ⟨M, hM, h3, heq⟩ := mergeRows_merged (B := B) schema hb.toRevision
    ho.toRevision ht.toRevision hno
  obtain ⟨M', hM', h3', heq'⟩ := mergeRowsCells_merged (B := B) hb ho ht
    (fun k hk => absurd hk (hno k)) fun k hk => absurd hk (hno k)
  have hMM : M' = M := eq_of_get_eq hM' hM fun k => ((h3' k).1 (hno k)).unique (h3 k) (hno k)
  rw [heq', hMM, ← heq, h]

end Tables

/-! ## Symmetry -/

theorem RowMap.isRow {E : List (Bytes × Bytes)} (h : RowMap schema E) {row : Row}
    (hr : IsRow schema (get k E) row) :
    RowWf row ∧ row.length = schema.arity ∧ ∀ c ∈ row, nestDepth c ≤ 63 := by
  obtain ⟨v, hv, hd⟩ := hr
  have hs := shallow_of_decodeRow hd
  obtain ⟨row', hw, hl, he, -, hd'⟩ := h.decodeRow hv hs
  cases hd.symm.trans hd'
  exact ⟨hw, hl, hs row hw he⟩

theorem encodeRow_inj {row row' : Row} {v : Bytes} (hw : RowWf row) (hw' : RowWf row')
    (hl : row.length = schema.arity) (hl' : row'.length = schema.arity)
    (hn : ∀ c ∈ row, nestDepth c ≤ 63) (hn' : ∀ c ∈ row', nestDepth c ≤ 63)
    (h : encodeRow row = .ok v) (h' : encodeRow row' = .ok v) : row = row' :=
  Except.ok.inj ((decodeRow_encodeRow hw hl hn h).symm.trans (decodeRow_encodeRow hw' hl' hn' h'))

theorem cellsValue_swap (hb : RowMap schema Eb) (ho : RowMap schema Eo) (ht : RowMap schema Et)
    {v v' : Bytes} (h : CellsValue schema (get k Eb) (get k Eo) (get k Et) v)
    (h' : CellsValue schema (get k Eb) (get k Et) (get k Eo) v') :
    v = v' ↔ ExactCells schema (get k Eb) (get k Eo) (get k Et) := by
  obtain ⟨b, o, t, row, hrb, hro, hrt, hm, he⟩ := h
  obtain ⟨b', t', o', row', hrb', hrt', hro', hm', he'⟩ := h'
  obtain rfl := hrb.unique hrb'
  obtain rfl := hro.unique hro'
  obtain rfl := hrt.unique hrt'
  obtain ⟨hwb, hlb, -⟩ := hb.isRow hrb
  obtain ⟨hwo, hlo, hno⟩ := ho.isRow hro
  obtain ⟨hwt, hlt, hnt⟩ := ht.isRow hrt
  have hbo := hlb.trans hlo.symm
  have hbt := hlb.trans hlt.symm
  have hn : ∀ {row : Row}, (∀ c ∈ row, c ∈ o ∨ c ∈ t) → ∀ c ∈ row, nestDepth c ≤ 63 :=
    fun h c hc => (h c hc).elim (hno c) (hnt c)
  have hrow : v = v' ↔ row = row' := by
    constructor
    · rintro rfl
      exact encodeRow_inj (mergeCells_wf hm hwb hwo hwt hbo hbt)
        (mergeCells_wf hm' hwb hwt hwo hbt hbo) ((mergeCells_length hm hbo hbt).trans hlb)
        ((mergeCells_length hm' hbt hbo).trans hlb) (hn (mergeCells_mem hm))
        (hn fun c hc => (mergeCells_mem hm' c hc).symm) he he'
    · rintro rfl
      exact Except.ok.inj (he.symm.trans he')
  rw [hrow, mergeCells_swap hm hm']
  refine ⟨fun h b' o' t' hb' ho' ht' => ?_, fun h => h b o t hrb hro hrt⟩
  rwa [hb'.unique hrb, ho'.unique hro, ht'.unique hrt]

theorem cellMergedMap_swap (hb : RowMap schema Eb) (ho : RowMap schema Eo) (ht : RowMap schema Et)
    {M M' : List (Bytes × Bytes)} (hM : Ascending M) (hM' : Ascending M')
    (h : CellMergedMap schema Eb Eo Et M) (h' : CellMergedMap schema Eb Et Eo M') :
    M = M' ↔ ∀ k, ConflictAt Eb Eo Et k → ExactCells schema (get k Eb) (get k Eo) (get k Et) := by
  constructor
  · rintro rfl k hk
    obtain ⟨v, hv, hget⟩ := (h k).2 hk
    obtain ⟨v', hv', hget'⟩ := (h' k).2 hk.symm
    exact (cellsValue_swap hb ho ht hv hv').mp (Option.some.inj (hget.symm.trans hget'))
  · intro hex
    refine eq_of_get_eq hM hM' fun k => ?_
    by_cases hk : ConflictAt Eb Eo Et k
    · obtain ⟨v, hv, hget⟩ := (h k).2 hk
      obtain ⟨v', hv', hget'⟩ := (h' k).2 hk.symm
      rw [hget, hget', (cellsValue_swap hb ho ht hv hv').mpr (hex k hk)]
    · exact ((h k).1 hk).unique ((h' k).1 fun hk' => hk hk'.symm).symm hk

variable (schema) in
/-- Both merges give the same root, or conflicts on the same keys. -/
def SameResult (x y : Result (TableMerge D × MemoryStore hash)) : Prop :=
  (∃ root s1 s2, x = .ok (.merged root, s1) ∧ y = .ok (.merged root, s2)) ∨
  (∃ rows rows' s1 s2, x = .ok (.conflicts rows, s1) ∧ y = .ok (.conflicts rows', s2) ∧
    ∀ k, k ∈ rows.map schema.rowKey ↔ k ∈ rows'.map schema.rowKey)

omit [DecidableEq D] [ToString D] in
theorem SameResult.ne_error {x y : Result (TableMerge D × MemoryStore hash)}
    (h : SameResult schema x y) (e : LoomError) : x ≠ .error e ∧ y ≠ .error e := by
  rcases h with ⟨_, _, _, rfl, rfl⟩ | ⟨_, _, _, _, rfl, rfl, -⟩ <;> simp

section Tables

variable (hb : TableRoot schema s.readNode base Eb) (ho : TableRoot schema s.readNode ours Eo)
  (ht : TableRoot schema s.readNode theirs Et)
  (hl : ∀ k, ConflictAt Eb Eo Et k →
    Legible (get k Eb) (get k Eo) (get k Et) ∧ Legible (get k Eb) (get k Et) (get k Eo))

include hb ho ht hl

theorem sameResult_conflicts (hex : ∃ k, ConflictAt Eb Eo Et k ∧
      ¬ Reconcilable schema (get k Eb) (get k Eo) (get k Et)) :
    SameResult schema (mergeRowsCells B schema base ours theirs s)
      (mergeRowsCells B schema base theirs ours s) := by
  obtain ⟨rows, hrows, -, hmem⟩ := mergeRowsCells_conflicts (B := B) hb ho ht
    (fun k hk => (hl k hk).1) hex
  obtain ⟨k, hk, hnot⟩ := hex
  obtain ⟨rows', hrows', -, hmem'⟩ := mergeRowsCells_conflicts (B := B) hb ht ho
    (fun k hk => (hl k hk.symm).2) ⟨k, hk.symm, fun h => hnot h.symm⟩
  refine .inr ⟨rows, rows', s, s, hrows, hrows', fun k => ?_⟩
  rw [hmem, hmem']
  exact ⟨fun h => ⟨h.1.symm, fun h' => h.2 h'.symm⟩, fun h => ⟨h.1.symm, fun h' => h.2 h'.symm⟩⟩

theorem sameResult_merged_iff (hinj : Function.Injective hash) (hr : ∀ k, ConflictAt Eb Eo Et k →
      Reconcilable schema (get k Eb) (get k Eo) (get k Et)) :
    SameResult schema (mergeRowsCells B schema base ours theirs s)
        (mergeRowsCells B schema base theirs ours s) ↔
      (∀ k, ConflictAt Eb Eo Et k → ExactCells schema (get k Eb) (get k Eo) (get k Et)) ∧
      ∀ M, Ascending M → CellMergedMap schema Eb Eo Et M → (forest B 254 M).length ≤ 1 := by
  obtain ⟨M, hM, hcm, heq⟩ := mergeRowsCells_merged (B := B) hb ho ht (fun k hk => (hl k hk).1) hr
  obtain ⟨M', hM', hcm', heq'⟩ := mergeRowsCells_merged (B := B) hb ht ho
    (fun k hk => (hl k hk.symm).2) fun k hk => (hr k hk.symm).symm
  rw [← cellMergedMap_swap hb.rows ho.rows ht.rows hM hM' hcm hcm', heq, heq']
  constructor
  · rintro (⟨root, s1, s2, h1, h2⟩ | ⟨rows, -, s1, -, h1, -⟩)
    · obtain ⟨⟨root₁, s₁'⟩, hbuild1, h1⟩ := of_bind h1
      obtain ⟨⟨root₂, s₂'⟩, hbuild2, h2⟩ := of_bind h2
      obtain rfl := TableMerge.merged.inj (Prod.mk.inj (Except.ok.inj h1)).1
      obtain rfl := TableMerge.merged.inj (Prod.mk.inj (Except.ok.inj h2)).1
      refine ⟨?_, fun M₁ hM₁ hcm1 => ?_⟩
      · exact Prolly.represents_unique hinj (Prolly.represents_of_build hinj hM hbuild1)
          (Prolly.represents_of_build hinj hM' hbuild2)
      · rw [hcm1.unique hcm hM₁ hM]
        exact (Prolly.build_ok_iff hinj M s).mp ⟨_, hbuild1⟩
    · obtain ⟨b, -, h1⟩ := of_bind h1
      exact absurd (Prod.mk.inj (Except.ok.inj h1)).1 (by simp)
  · rintro ⟨rfl, hfit⟩
    obtain ⟨⟨root, s'⟩, hbuild⟩ := (Prolly.build_ok_iff hinj M s).mpr (hfit M hM hcm)
    exact .inl ⟨root, s', s', by rw [hbuild, ok_bind], by rw [hbuild, ok_bind]⟩

end Tables

/-- **Symmetry of the cell-level merge.** The two orders give the same result, and keep a clean
row-level merge, exactly when the rows they read nest at most 63 deep, and some row conflicts or all
cells that compare as equal are identical. -/
theorem mergeRowsCells_symm_iff (hinj : Function.Injective hash)
    (hb : TableRoot schema s.readNode base Eb) (ho : TableRoot schema s.readNode ours Eo)
    (ht : TableRoot schema s.readNode theirs Et) :
    (SameResult schema (mergeRowsCells B schema base ours theirs s)
        (mergeRowsCells B schema base theirs ours s) ∧
      ∀ root s', mergeRows B schema base ours theirs s = .ok (.merged root, s') →
        mergeRowsCells B schema base ours theirs s = .ok (.merged root, s')) ↔
    (∀ k, ConflictAt Eb Eo Et k → Legible (OrdMap.get k Eb) (OrdMap.get k Eo) (OrdMap.get k Et) ∧
      Legible (OrdMap.get k Eb) (OrdMap.get k Et) (OrdMap.get k Eo)) ∧
    ((∃ k, ConflictAt Eb Eo Et k ∧
        ¬ Reconcilable schema (OrdMap.get k Eb) (OrdMap.get k Eo) (OrdMap.get k Et)) ∨
      (∀ k, ConflictAt Eb Eo Et k →
        ExactCells schema (OrdMap.get k Eb) (OrdMap.get k Eo) (OrdMap.get k Et)) ∧
      ∀ M, Ascending M → CellMergedMap schema Eb Eo Et M → (forest B 254 M).length ≤ 1) := by
  rw [and_iff_left fun root s' h => mergeRowsCells_of_merged hb ho ht h]
  by_cases hl : ∀ k, ConflictAt Eb Eo Et k → Legible (get k Eb) (get k Eo) (get k Et) ∧
      Legible (get k Eb) (get k Et) (get k Eo)
  · rw [and_iff_right hl]
    by_cases hex : ∃ k, ConflictAt Eb Eo Et k ∧
        ¬ Reconcilable schema (get k Eb) (get k Eo) (get k Et)
    · exact ⟨fun _ => .inl hex, fun _ => sameResult_conflicts hb ho ht hl hex⟩
    · rw [sameResult_merged_iff hb ho ht hl hinj fun k hk => by
        by_contra hn
        exact hex ⟨k, hk, hn⟩]
      exact ⟨.inr, fun h => h.resolve_left hex⟩
  · refine ⟨fun h => absurd (fun k hk => ⟨?_, ?_⟩) hl, fun h => absurd h.1 hl⟩
    · by_contra hn
      obtain ⟨e, he⟩ := mergeRowsCells_error (B := B) schema hb.toRevision
        ho.toRevision ht.toRevision hk hn
      exact (h.ne_error e).1 he
    · by_contra hn
      obtain ⟨e, he⟩ := mergeRowsCells_error (B := B) schema hb.toRevision
        ht.toRevision ho.toRevision hk.symm hn
      exact (h.ne_error e).2 he

end Cells

/-! ## Two peers that do not converge -/

def pricedSchema : Schema where
  columns := [("id", .int), ("price", .decimal)]
  primaryKey := [0]
  columns_ne := by simp
  primaryKey_ne := taggedSchema.primaryKey_ne
  inRange := by simp

def pricedRow (mantissa : BitVec 128) (scale : BitVec 32) : Row := [.int 1, .decimal mantissa scale]

/-- The bytes of such a row, for a small mantissa and scale. -/
def pricedBytes (mantissa scale : UInt8) : Bytes :=
  [0x82, 0x82, 2, 1, 0x83, 0x10, 0x50, mantissa] ++ List.replicate 15 0 ++ [scale]

theorem rowMap_priced (mantissa : BitVec 128) (scale : BitVec 32)
    (h : encodeRow (pricedRow mantissa scale) = .ok v) : RowMap pricedSchema [(idOne, v)] := by
  intro e he
  obtain rfl := mem_singleton.mp he
  exact ⟨pricedRow mantissa scale, ⟨by simp [pricedRow], trivial, trivial, trivial⟩, rfl, h, rfl⟩

theorem mergeCells_priced {m m' : BitVec 128} {sc sc' : BitVec 32} (b : Value)
    (h : encodeKeyValue (.decimal m sc) = encodeKeyValue (.decimal m' sc')) :
    mergeCells [.int 1, b] (pricedRow m sc) (pricedRow m' sc') = some (pricedRow m sc) :=
  mergeCells_cons.mpr ⟨_, _, if_pos (eq_iff.mpr rfl),
    mergeCells_cons.mpr ⟨_, _, if_pos (eq_iff.mpr h), rfl, rfl⟩, rfl⟩

theorem get_single (k v : Bytes) : get k [(k, v)] = some v := (get_cons k (k, v) []).trans (if_pos rfl)

theorem ConflictAt.of_single {b o t k k' : Bytes} (h : ConflictAt [(k, b)] [(k, o)] [(k, t)] k') :
    k' = k := by
  by_contra hne
  exact h.1 (by simp [OrdMap.get, Ne.symm hne])

theorem legible_single {b o t k k' : Bytes} {rb ro rt : Row} (hdb : decodeRow schema b = .ok rb)
    (hdo : decodeRow schema o = .ok ro) (hdt : decodeRow schema t = .ok rt)
    (hk : ConflictAt [(k, b)] [(k, o)] [(k, t)] k') :
    Legible (get k' [(k, b)]) (get k' [(k, o)]) (get k' [(k, t)]) := by
  obtain rfl := hk.of_single
  rw [get_single, get_single, get_single]
  refine ⟨?_, ?_⟩
  · rintro _ ⟨⟩
    exact shallow_of_decodeRow hdo
  · rintro _ _ _ ⟨⟩ ⟨⟩ ⟨⟩
    exact ⟨shallow_of_decodeRow hdb, shallow_of_decodeRow hdt⟩

theorem mergeRowsCells_single {b o t k : Bytes} {rb ro rt : Row} {ess : List (List (Bytes × Bytes))}
    (hb : TableRoot schema (leavesStore ess).readNode (some (.leaf [(k, b)])) [(k, b)])
    (ho : TableRoot schema (leavesStore ess).readNode (some (.leaf [(k, o)])) [(k, o)])
    (ht : TableRoot schema (leavesStore ess).readNode (some (.leaf [(k, t)])) [(k, t)])
    (hc : Conflict (some b) (some o) (some t)) (hdb : decodeRow schema b = .ok rb)
    (hdo : decodeRow schema o = .ok ro) (hdt : decodeRow schema t = .ok rt)
    (hm : mergeCells rb ro rt = some row) (he : encodeRow row = .ok v) :
    ∃ s', mergeRowsCells (fun _ _ => false) schema (some (.leaf [(k, b)]))
      (some (.leaf [(k, o)])) (some (.leaf [(k, t)])) (leavesStore ess) =
        .ok (.merged (some (.leaf [(k, v)])), s') := by
  have hv : CellsValue schema (some b) (some o) (some t) v :=
    ⟨rb, ro, rt, row, ⟨b, rfl, hdb⟩, ⟨o, rfl, hdo⟩, ⟨t, rfl, hdt⟩, hm, he⟩
  obtain ⟨M, hM, hcm, heq⟩ := mergeRowsCells_merged (B := fun _ _ => false) hb ho ht
    (fun _ => legible_single hdb hdo hdt) (by
      intro k' hk
      obtain rfl := hk.of_single
      rw [get_single, get_single, get_single]
      exact ⟨rb, ro, rt, ⟨b, rfl, hdb⟩, ⟨o, rfl, hdo⟩, ⟨t, rfl, hdt⟩,
        mergeCells_isSome.mp ⟨row, hm⟩⟩)
  have hM' : M = [(k, v)] := by
    refine hcm.unique (fun k' => ⟨fun hn => ?_, fun hk => ?_⟩) hM (pairwise_singleton _ _)
    · have hne : k ≠ k' := by
        rintro rfl
        refine hn ?_
        rw [ConflictAt, get_single, get_single, get_single]
        exact hc
      simp only [get_cons, if_neg hne]
      exact ⟨fun _ => rfl, fun _ => rfl, fun _ => rfl⟩
    · obtain rfl := hk.of_single
      rw [get_single, get_single, get_single, get_single]
      exact ⟨v, hv, rfl⟩
  rw [heq, hM']
  exact ⟨_, rfl⟩

/-- The leaves of four tables, of the row at the prices `1.0`, `1.5`, `1.50` and `2.5`. -/
def pricedLeaves : List (List (Bytes × Bytes)) := [[(idOne, pricedBytes 10 1)],
  [(idOne, pricedBytes 15 1)], [(idOne, pricedBytes 150 2)], [(idOne, pricedBytes 25 1)]]

/-- Both sides change the price: the two orders report the same row. -/
theorem mergeRowsCells_symm_priced : SameResult pricedSchema
      (mergeRowsCells (fun _ _ => false) pricedSchema (some (.leaf [(idOne, pricedBytes 10 1)]))
        (some (.leaf [(idOne, pricedBytes 15 1)])) (some (.leaf [(idOne, pricedBytes 25 1)]))
        (leavesStore pricedLeaves))
      (mergeRowsCells (fun _ _ => false) pricedSchema (some (.leaf [(idOne, pricedBytes 10 1)]))
        (some (.leaf [(idOne, pricedBytes 25 1)])) (some (.leaf [(idOne, pricedBytes 15 1)]))
        (leavesStore pricedLeaves)) := by
  have hconf : ConflictAt [(idOne, pricedBytes 10 1)] [(idOne, pricedBytes 15 1)]
      [(idOne, pricedBytes 25 1)] idOne := by
    refine ⟨?_, ?_, ?_⟩ <;> decide
  have hd10 : decodeRow pricedSchema (pricedBytes 10 1) = .ok (pricedRow 10 1) := rfl
  have hd15 : decodeRow pricedSchema (pricedBytes 15 1) = .ok (pricedRow 15 1) := rfl
  have hd25 : decodeRow pricedSchema (pricedBytes 25 1) = .ok (pricedRow 25 1) := rfl
  refine ((mergeRowsCells_symm_iff (B := fun _ _ => false) Prolly.FreeDigest.ofNode_injective
    (tableRoot_single (v := pricedBytes 10 1) _ (by simp [pricedLeaves]) (rowMap_priced 10 1 rfl))
    (tableRoot_single (v := pricedBytes 15 1) _ (by simp [pricedLeaves]) (rowMap_priced 15 1 rfl))
    (tableRoot_single (v := pricedBytes 25 1) _ (by simp [pricedLeaves]) (rowMap_priced 25 1 rfl))).mpr
      ⟨fun k hk => ⟨legible_single hd10 hd15 hd25 hk, legible_single hd10 hd25 hd15 hk.symm⟩,
        .inl ⟨idOne, hconf, ?_⟩⟩).1
  rintro ⟨b, o, t, hb, ho, ht, hcol⟩
  rw [get_single] at hb ho ht
  obtain rfl := hb.unique ⟨_, rfl, hd10⟩
  obtain rfl := ho.unique ⟨_, rfl, hd15⟩
  obtain rfl := ht.unique ⟨_, rfl, hd25⟩
  have hprice : CellConflict (.decimal 10 1) (.decimal 15 1) (.decimal 25 1) := by
    refine ⟨?_, ?_, ?_⟩ <;> decide +kernel
  exact hcol.2.1 hprice

/-- **Two peers that do not converge** on `1.5` and `1.50`: each order keeps its own side. -/
theorem mergeRowsCells_decimal :
    (∀ v ∈ [pricedBytes 10 1, pricedBytes 15 1, pricedBytes 150 2], TableRoot pricedSchema
      (leavesStore pricedLeaves).readNode (some (.leaf [(idOne, v)])) [(idOne, v)]) ∧
    (∃ s', mergeRowsCells (fun _ _ => false) pricedSchema
        (some (.leaf [(idOne, pricedBytes 10 1)])) (some (.leaf [(idOne, pricedBytes 15 1)]))
        (some (.leaf [(idOne, pricedBytes 150 2)])) (leavesStore pricedLeaves) =
      .ok (.merged (some (.leaf [(idOne, pricedBytes 15 1)])), s')) ∧
    (∃ s', mergeRowsCells (fun _ _ => false) pricedSchema
        (some (.leaf [(idOne, pricedBytes 10 1)])) (some (.leaf [(idOne, pricedBytes 150 2)]))
        (some (.leaf [(idOne, pricedBytes 15 1)])) (leavesStore pricedLeaves) =
      .ok (.merged (some (.leaf [(idOne, pricedBytes 150 2)])), s')) ∧
    pricedBytes 15 1 ≠ pricedBytes 150 2 := by
  have hb := tableRoot_single pricedLeaves (v := pricedBytes 10 1) (by simp [pricedLeaves])
    (rowMap_priced 10 1 rfl)
  have ho := tableRoot_single pricedLeaves (v := pricedBytes 15 1) (by simp [pricedLeaves])
    (rowMap_priced 15 1 rfl)
  have ht := tableRoot_single pricedLeaves (v := pricedBytes 150 2)
    (by simp [pricedLeaves]) (rowMap_priced 150 2 rfl)
  have hkey : encodeKeyValue (.decimal 15 1) = encodeKeyValue (.decimal 150 2) := by decide +kernel
  have hc : Conflict (some (pricedBytes 10 1)) (some (pricedBytes 15 1))
      (some (pricedBytes 150 2)) := by
    refine ⟨?_, ?_, ?_⟩ <;> decide
  refine ⟨?_, ?_, ?_, by decide⟩
  · simp only [forall_mem_cons]
    exact ⟨hb, ho, ht, nofun⟩
  · exact mergeRowsCells_single hb ho ht hc rfl rfl rfl (mergeCells_priced _ hkey) rfl
  · exact mergeRowsCells_single hb ht ho ⟨hc.2.1, hc.1, hc.2.2.symm⟩ rfl rfl rfl
      (mergeCells_priced _ hkey.symm) rfl

end UldrenLoom.Tabular
