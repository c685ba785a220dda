import UldrenLoom.Cbor
import UldrenLoom.Lib.OrdMap
import UldrenLoom.Tabular.Value

/-!
# Cells, rows and schemas

The canonical CBOR form of a cell and of a row, and the schema a row is checked against.

* `encodeRow`, `decodeRow`: a row as the canonical bytes of the array of its cells. The source
  unwraps the encoder's result; here a failed encoding is an error.
* `Value.Wf`, `RowWf`: what the source's types guarantee: lengths fit a machine word, and the
  entries of a `BTreeMap` ascend.
-/

namespace UldrenLoom.Tabular

open ByteString Cbor

/-! ## Cells -/

mutual

/-- The CBOR form of a cell: an array of a tag and the cell's fields. -/
def cellValue : Value → Codec.Value
  | .null => .array [.uint 0]
  | .bool b => .array [.uint 1, .bool b]
  | .int i => .array [.uint 2, .int i.toInt]
  | .float bits => .array [.uint 3, .uint ⟨bits⟩]
  | .text s => .array [.uint 4, .text s]
  | .bytes b => .array [.uint 5, .bytes b]
  | .i8 x => .array [.uint 6, .int x.toInt]
  | .i16 x => .array [.uint 7, .int x.toInt]
  | .i32 x => .array [.uint 8, .int x.toInt]
  | .i128 x => .array [.uint 9, .bytes (leBytes 16 x.toNat)]
  | .u8 x => .array [.uint 10, .uint (UInt64.ofNat x.toNat)]
  | .u16 x => .array [.uint 11, .uint (UInt64.ofNat x.toNat)]
  | .u32 x => .array [.uint 12, .uint (UInt64.ofNat x.toNat)]
  | .u64 x => .array [.uint 13, .uint ⟨x⟩]
  | .u128 x => .array [.uint 14, .bytes (leBytes 16 x.toNat)]
  | .f32 bits => .array [.uint 15, .uint (UInt64.ofNat bits.toNat)]
  | .decimal mantissa scale =>
    .array [.uint 16, .bytes (leBytes 16 mantissa.toNat), .uint (UInt64.ofNat scale.toNat)]
  | .date d => .array [.uint 17, .int d.toInt]
  | .time t => .array [.uint 18, .uint ⟨t⟩]
  | .timestamp t => .array [.uint 19, .int t.toInt]
  | .interval months micros => .array [.uint 20, .int months.toInt, .int micros.toInt]
  | .uuid u => .array [.uint 21, .bytes (leBytes 16 u.toNat)]
  | .inet (.v4 a) => .array [.uint 22, .uint 4, .bytes (toBeBytes 4 a)]
  | .inet (.v6 a) => .array [.uint 22, .uint 6, .bytes (toBeBytes 16 a)]
  | .point x y => .array [.uint 23, .uint ⟨x⟩, .uint ⟨y⟩]
  | .list items => .array [.uint 24, .array (cellValues items)]
  | .map entries => .array [.uint 25, .map (cellEntries entries)]
termination_by structural v => v

def cellValues : List Value → List Codec.Value
  | [] => []
  | v :: vs => cellValue v :: cellValues vs
termination_by structural vs => vs

def cellEntries : List (Text × Value) → List (Codec.Value × Codec.Value)
  | [] => []
  | (k, v) :: es => (.text k, cellValue v) :: cellEntries es
termination_by structural es => es

end

def narrowUint (w : ℕ) (name : String) (n : UInt64) : Result (BitVec w) :=
  if n.toNat < 2 ^ w then .ok (BitVec.ofNat w n.toNat)
  else .error (.corrupt s!"value out of {name} range")

def narrowInt (w : ℕ) (name : String) (n : ℤ) : Result (BitVec w) :=
  if -2 ^ (w - 1) ≤ n ∧ n < 2 ^ (w - 1) then .ok (BitVec.ofInt w n)
  else .error (.corrupt s!"value out of {name} range")

def asU8 : UInt64 → Result (BitVec 8) := narrowUint 8 "u8"

def asU16 : UInt64 → Result (BitVec 16) := narrowUint 16 "u16"

def asU32 : UInt64 → Result (BitVec 32) := narrowUint 32 "u32"

def asI8 : ℤ → Result (BitVec 8) := narrowInt 8 "i8"

def asI16 : ℤ → Result (BitVec 16) := narrowInt 16 "i16"

def asI32 : ℤ → Result (BitVec 32) := narrowInt 32 "i32"

def fixed (n : ℕ) (b : Bytes) : Result Bytes :=
  if b.length = n then .ok b else .error (.corrupt "fixed-width byte field has the wrong length")

/-- A 128-bit integer from its 16 little-endian bytes. -/
def fromLeBytes (b : Bytes) : Result (BitVec 128) := do
  .ok (BitVec.ofNat 128 (leNat (← fixed 16 b)))

def inetFrom (family : UInt64) (octets : Bytes) : Result IpAddr :=
  match family.toNat with
  | 4 => do .ok (.v4 (BitVec.ofNat 32 (beNat (← fixed 4 octets))))
  | 6 => do .ok (.v6 (BitVec.ofNat 128 (beNat (← fixed 16 octets))))
  | other => .error (.corrupt s!"bad inet family {other}")

/-- The fields of a cell that holds no other cells, after its tag. -/
def scalarFrom (tag : ℕ) : Fields Value :=
  match tag with
  | 0 => return .null
  | 1 => return .bool (← Fields.bool)
  | 2 => return .int (BitVec.ofInt 64 (← Fields.int))
  | 3 => return .float (← Fields.uint).toBitVec
  | 4 => return .text (← Fields.text)
  | 5 => return .bytes (← Fields.bytes)
  | 6 => return .i8 (← asI8 (← Fields.int))
  | 7 => return .i16 (← asI16 (← Fields.int))
  | 8 => return .i32 (← asI32 (← Fields.int))
  | 9 => return .i128 (← fromLeBytes (← Fields.bytes))
  | 10 => return .u8 (← asU8 (← Fields.uint))
  | 11 => return .u16 (← asU16 (← Fields.uint))
  | 12 => return .u32 (← asU32 (← Fields.uint))
  | 13 => return .u64 (← Fields.uint).toBitVec
  | 14 => return .u128 (← fromLeBytes (← Fields.bytes))
  | 15 => return .f32 (← asU32 (← Fields.uint))
  | 16 => return .decimal (← fromLeBytes (← Fields.bytes)) (← asU32 (← Fields.uint))
  | 17 => return .date (← asI32 (← Fields.int))
  | 18 => return .time (← Fields.uint).toBitVec
  | 19 => return .timestamp (BitVec.ofInt 64 (← Fields.int))
  | 20 => return .interval (← asI32 (← Fields.int)) (BitVec.ofInt 64 (← Fields.int))
  | 21 => return .uuid (← fromLeBytes (← Fields.bytes))
  | 22 => return .inet (← inetFrom (← Fields.uint) (← Fields.bytes))
  | 23 => return .point (← Fields.uint).toBitVec (← Fields.uint).toBitVec
  | other => throw (.corrupt s!"unknown value tag {other}")

mutual

def cellFrom : Codec.Value → Result Value
  | .array fields => cellFromFields fields
  | _ => .error (.corrupt "expected an array")
termination_by structural item => item

/-- The cell of an item's fields; those of lists and maps hold further cells. -/
def cellFromFields : List Codec.Value → Result Value
  | [] => .error (.corrupt "missing field")
  | t :: fields => do
    let tag ← asUint t
    if tag = 24 then listFrom fields
    else if tag = 25 then mapFrom fields
    else do
      let (v, rest) ← scalarFrom tag.toNat fields
      let _ ← Fields.end rest
      .ok v
termination_by structural fields => fields

def listFrom : List Codec.Value → Result Value
  | [] => .error (.corrupt "missing field")
  | field :: rest => do
    let vs ← cellsOf field
    let _ ← Fields.end rest
    .ok (.list vs)
termination_by structural fields => fields

def mapFrom : List Codec.Value → Result Value
  | [] => .error (.corrupt "missing field")
  | field :: rest => do
    let m ← entriesOf field
    let _ ← Fields.end rest
    .ok (.map m)
termination_by structural fields => fields

def cellsOf : Codec.Value → Result (List Value)
  | .array items => cellFromItems items
  | _ => .error (.corrupt "expected an array")
termination_by structural field => field

def entriesOf : Codec.Value → Result (List (Text × Value))
  | .map pairs => cellFromPairs pairs []
  | _ => .error (.corrupt "expected a map")
termination_by structural field => field

def cellFromItems : List Codec.Value → Result (List Value)
  | [] => .ok []
  | item :: items => do
    let v ← cellFrom item
    let vs ← cellFromItems items
    .ok (v :: vs)
termination_by structural items => items

def cellFromPairs : List (Codec.Value × Codec.Value) → List (Text × Value) →
    Result (List (Text × Value))
  | [], m => .ok m
  | (k, v) :: pairs, m => do
    let key ← asText k
    let val ← cellFrom v
    cellFromPairs pairs (OrdMap.insert (K := Text) key val m)
termination_by structural pairs => pairs

end

/-! ## Schemas -/

/-- A table schema, with what its constructor checks. -/
structure Schema where
  columns : List (String × ColumnType)
  primaryKey : List ℕ
  columns_ne : columns ≠ []
  primaryKey_ne : primaryKey ≠ []
  inRange : ∀ i ∈ primaryKey, i < columns.length

namespace Schema

def arity (s : Schema) : ℕ := s.columns.length

end Schema

def ColumnType.debug : ColumnType → String
  | .int => "Int"
  | .float => "Float"
  | .text => "Text"
  | .bool => "Bool"
  | .bytes => "Bytes"
  | .i8 => "I8"
  | .i16 => "I16"
  | .i32 => "I32"
  | .i128 => "I128"
  | .u8 => "U8"
  | .u16 => "U16"
  | .u32 => "U32"
  | .u64 => "U64"
  | .u128 => "U128"
  | .f32 => "F32"
  | .decimal => "Decimal"
  | .date => "Date"
  | .time => "Time"
  | .timestamp => "Timestamp"
  | .interval => "Interval"
  | .uuid => "Uuid"
  | .inet => "Inet"
  | .point => "Point"
  | .list => "List"
  | .map => "Map"

/-! ## Rows -/

abbrev Row := List Value

def checkCells : List (Value × String × ColumnType) → Result Unit
  | [] => .ok ()
  | (v, name, ty) :: rest =>
    if v.matches ty then checkCells rest
    else .error (.invalid ("column " ++ name.quote ++ " expects " ++ ty.debug))

/-- Validate a row against a schema: arity and per-column type. -/
def Schema.checkRow (s : Schema) (row : Row) : Result Unit :=
  let values := row.length
  let columns := s.arity
  if values ≠ columns then
    .error (.invalid s!"row has {values} values, schema has {columns}")
  else checkCells (row.zip s.columns)

def encodeRow (row : Row) : Result Bytes := Cbor.encode (.array (cellValues row))

def decodeRow (s : Schema) (bytes : Bytes) : Result Row := do
  let items ← decodeArray bytes
  if items.length ≠ s.arity then .error (.corrupt "row arity mismatch")
  else cellFromItems items

/-! ## Well-formed values and nesting -/

mutual

/-- What the source's types guarantee of a value. -/
def Value.Wf : Value → Prop
  | .text s => (strBytes s).length < 2 ^ 64
  | .bytes b => b.length < 2 ^ 64
  | .list items => items.length < 2 ^ 64 ∧ WfItems items
  | .map entries => entries.length < 2 ^ 64 ∧ OrdMap.Ascending entries ∧ WfEntries entries
  | _ => True
termination_by structural v => v

def WfItems : List Value → Prop
  | [] => True
  | v :: vs => v.Wf ∧ WfItems vs
termination_by structural vs => vs

def WfEntries : List (Text × Value) → Prop
  | [] => True
  | (k, v) :: es => (strBytes k).length < 2 ^ 64 ∧ v.Wf ∧ WfEntries es
termination_by structural es => es

end

def RowWf (row : Row) : Prop := row.length < 2 ^ 64 ∧ WfItems row

mutual

/-- How deep lists and maps are nested in a value: an empty one holds nothing. -/
def nestDepth : Value → ℕ
  | .list items => nestItems items
  | .map entries => nestEntries entries
  | _ => 0
termination_by structural v => v

def nestItems : List Value → ℕ
  | [] => 0
  | v :: vs => max (nestDepth v + 1) (nestItems vs)
termination_by structural vs => vs

def nestEntries : List (Text × Value) → ℕ
  | [] => 0
  | (_, v) :: es => max (nestDepth v + 1) (nestEntries es)
termination_by structural es => es

end

end UldrenLoom.Tabular
