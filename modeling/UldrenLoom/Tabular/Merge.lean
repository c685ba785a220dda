import UldrenLoom.Prolly.Model
import UldrenLoom.Tabular.Row

/-!
# Three-way merges of row maps

A table is a prolly tree from encoded primary keys to encoded rows. Two revisions are merged against
their common base.
-/

namespace UldrenLoom.Tabular

open ByteString
open Prolly (Node MemoryStore DiffEntry)

/-- The outcome of a table merge: the root of the merged row map, or the conflicting rows. -/
inductive TableMerge (D : Type) where
  | merged (root : Option D)
  | conflicts (rows : List Row)

/-- What happens to a key: it is set or removed, left as it is in ours, or in conflict. -/
inductive Outcome where
  | assign (value : Option Bytes)
  | keep
  | conflict (row : Row)
deriving Inhabited

/-- The primary-key values of a row. The indices are in range for a row of the schema's arity. -/
def Schema.keyOf (s : Schema) (row : Row) : List Value := s.primaryKey.map fun i => row.getD i .null

/-! ## The loop -/

section Merge

variable {D : Type} [DecidableEq D] [ToString D] {hash : Node D → D} (B : Bytes → ℕ → Bool)
  (reconcile : (base ours theirs : Option Bytes) → Result Outcome)

/-- What happens to a key that theirs changed. `oursChanged` holds what ours changed. -/
def outcomeOf (oursChanged : List (Bytes × Option Bytes)) (d : DiffEntry) : Result Outcome :=
  match OrdMap.get d.1 oursChanged with
  | none => .ok (.assign d.2.2)
  | some ourV => reconcile d.2.1 ourV d.2.2

/-- Apply an outcome to the merged entries and the conflicts so far. -/
def applyOutcome (acc : List (Bytes × Bytes) × List Row) (key : Bytes) :
    Outcome → List (Bytes × Bytes) × List Row
  | .assign (some v) => (OrdMap.insert key v acc.1, acc.2)
  | .assign none => (OrdMap.erase key acc.1, acc.2)
  | .keep => acc
  | .conflict row => (acc.1, acc.2 ++ [row])

/-- Start from ours' rows and fold in theirs' changes. -/
def mergeWith (base ours theirs : Option D) (s : MemoryStore hash) :
    Result (TableMerge D × MemoryStore hash) := do
  let oursD ← Prolly.diff s.readNode base ours
  let oursChanged := OrdMap.insertAll (oursD.map fun d => (d.1, d.2.2)) []
  let theirsD ← Prolly.diff s.readNode base theirs
  let rows ← Prolly.entriesOf s.readNode ours
  let (merged, conflicts) ← theirsD.foldlM (fun acc d => do
    let outcome ← outcomeOf reconcile oursChanged d
    .ok (applyOutcome acc d.1 outcome)) (OrdMap.insertAll rows [], [])
  if conflicts.isEmpty then do
    let (root, s) ← Prolly.build B merged s
    .ok (.merged root, s)
  else .ok (.conflicts conflicts, s)

end Merge

/-! ## Row level -/

/-- A conflict, reported with ours' row or else with theirs'. -/
def reportConflict (schema : Schema) (ours theirs : Option Bytes) : Result Outcome :=
  match ours.or theirs with
  | some rb => do
    let row ← decodeRow schema rb
    .ok (.conflict row)
  | none => .ok .keep

/-- Identical changes are fine, others conflict. -/
def reconcileRows (schema : Schema) (_base ours theirs : Option Bytes) : Result Outcome :=
  if ours = theirs then .ok .keep else reportConflict schema ours theirs

/-- Cell values are equal if they compare as equal. -/
def Value.eq (v w : Value) : Bool := v.cmp w == .eq

/-- The merge of one cell; `none` if both sides changed it differently. -/
def mergeCell (b o t : Value) : Option Value :=
  if o.eq t then some o
  else if o.eq b then some t
  else if t.eq b then some o
  else none

/-- Merge one row column by column; `none` if both sides changed a column differently. The three
rows have one cell for each column. -/
def mergeCells : (base ours theirs : Row) → Option Row
  | b :: bs, o :: os, t :: ts => do
    let cell ← mergeCell b o t
    let rest ← mergeCells bs os ts
    some (cell :: rest)
  | _, _, _ => some []

/-- Two modifications of an existing row are reconciled column by column, other divergences
conflict. -/
def reconcileCells (schema : Schema) (base ours theirs : Option Bytes) : Result Outcome :=
  if ours = theirs then .ok .keep
  else
    match base, ours, theirs with
    | some b, some o, some t => do
      let baseRow ← decodeRow schema b
      let ourRow ← decodeRow schema o
      let theirRow ← decodeRow schema t
      match mergeCells baseRow ourRow theirRow with
      | some row => do
        let bytes ← encodeRow row
        .ok (.assign (some bytes))
      | none => .ok (.conflict theirRow)
    | _, ours, theirs => reportConflict schema ours theirs

section Merge

variable {D : Type} [DecidableEq D] [ToString D] {hash : Node D → D} (B : Bytes → ℕ → Bool)
  (schema : Schema)

/-- Two different changes of a row are a conflict. -/
def mergeRows (base ours theirs : Option D) (s : MemoryStore hash) :
    Result (TableMerge D × MemoryStore hash) :=
  mergeWith B (reconcileRows schema) base ours theirs s

def mergeRowsCells (base ours theirs : Option D) (s : MemoryStore hash) :
    Result (TableMerge D × MemoryStore hash) :=
  mergeWith B (reconcileCells schema) base ours theirs s

end Merge

end UldrenLoom.Tabular
