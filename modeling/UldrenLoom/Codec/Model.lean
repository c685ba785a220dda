import UldrenLoom.Lib.ByteString

/-!
# Loom Canonical CBOR

The value model, the encoder and the strict decoder of the canonical codec.

* `encode`: the canonical bytes of a value. The source's `encode_into` appends them to a buffer.
* `Reader.value levels`: read one value with `levels` nesting levels left. The source counts the
  depth upwards and rejects a depth above `MAX_DEPTH`; here the levels left are counted down, and
  `decode` starts with `maxDepth + 1` of them.

A reader is the list of bytes that are left. Floats are their 64 bits.
-/

namespace UldrenLoom.Codec

open ByteString

def epoch : ℕ := 1

def maxDepth : ℕ := 128

/-- The CBOR data items the profile admits. -/
inductive Value where
  | uint (n : UInt64)
  | nint (n : UInt64)
  | bytes (b : Bytes)
  | text (s : String)
  | array (items : List Value)
  | map (pairs : List (Value × Value))
  | float (bits : UInt64)
  | bool (b : Bool)
  | null
deriving Repr, Inhabited

/-- The strict-decode and encode failures. -/
inductive CodecError where
  | unexpectedEof
  | trailingBytes
  | indefiniteLength
  | nonMinimalInt
  | reservedAdditionalInfo
  | invalidUtf8
  | unsortedMapKeys
  | duplicateMapKey
  | tag
  | nonCanonicalFloat
  | unsupportedSimpleValue
  | depthExceeded
  | notAnObject
  | wrongEpoch
deriving Repr, DecidableEq

def Value.int (v : ℤ) : Value :=
  if 0 ≤ v then .uint (UInt64.ofNat v.toNat) else .nint (UInt64.ofNat (-1 - v).toNat)

/-! ## Floats as bits -/

def isFinite (bits : UInt64) : Bool := (bits >>> 52) &&& 0x7ff != 0x7ff

def isZero (bits : UInt64) : Bool := bits <<< 1 == 0

def isSignNegative (bits : UInt64) : Bool := bits >>> 63 == 1

/-- `-0.0` becomes `+0.0`. -/
def normalized (bits : UInt64) : UInt64 := if isZero bits then 0 else bits

/-! ## Encode -/

/-- The head of a data item: its major type and its argument in shortest form. -/
def putHead (major : UInt8) (arg : ℕ) : Bytes :=
  let m := major <<< 5
  if arg ≤ 23 then [m ||| UInt8.ofNat arg]
  else if arg ≤ 0xff then [m ||| 24, UInt8.ofNat arg]
  else if arg ≤ 0xffff then (m ||| 25) :: beBytes 2 arg
  else if arg ≤ 0xffffffff then (m ||| 26) :: beBytes 4 arg
  else (m ||| 27) :: beBytes 8 arg

/-- Order encoded pairs by their key bytes (`sort_by` is stable, and so is insertion). -/
def sortPairs {α : Type} (ps : List (Bytes × α)) : List (Bytes × α) :=
  ps.insertionSort fun a b => a.1 ≤ b.1

def hasDuplicateKey {α : Type} : List (Bytes × α) → Bool
  | a :: b :: ps => a.1 == b.1 || hasDuplicateKey (b :: ps)
  | _ => false

mutual

def encode : Value → Except CodecError Bytes
  | .uint n => .ok (putHead 0 n.toNat)
  | .nint n => .ok (putHead 1 n.toNat)
  | .bytes b => .ok (putHead 2 b.length ++ b)
  | .text s => .ok (putHead 3 (strBytes s).length ++ strBytes s)
  | .array items => do
    let body ← encodeItems items
    .ok (putHead 4 items.length ++ body)
  | .map pairs => do
    let encoded := sortPairs (← encodePairs pairs)
    if hasDuplicateKey encoded then .error .duplicateMapKey
    else .ok (putHead 5 encoded.length ++ encoded.flatMap fun p => p.1 ++ p.2)
  | .float bits =>
    if isFinite bits then .ok (0xfb :: beBytes 8 (normalized bits).toNat)
    else .error .nonCanonicalFloat
  | .bool b => .ok [if b then 0xf5 else 0xf4]
  | .null => .ok [0xf6]
termination_by structural v => v

def encodeItems : List Value → Except CodecError Bytes
  | [] => .ok []
  | v :: vs => do
    let b ← encode v
    let bs ← encodeItems vs
    .ok (b ++ bs)
termination_by structural vs => vs

/-- The pairs of a map, each key and each value encoded on its own. -/
def encodePairs : List (Value × Value) → Except CodecError (List (Bytes × Bytes))
  | [] => .ok []
  | (k, v) :: ps => do
    let kb ← encode k
    let vb ← encode v
    let bs ← encodePairs ps
    .ok ((kb, vb) :: bs)
termination_by structural ps => ps

end

/-! ## Decode -/

namespace Reader

def byte : Bytes → Except CodecError (UInt8 × Bytes)
  | [] => .error .unexpectedEof
  | b :: buf => .ok (b, buf)

def take (n : ℕ) (buf : Bytes) : Except CodecError (Bytes × Bytes) :=
  if n ≤ buf.length then .ok (buf.take n, buf.drop n) else .error .unexpectedEof

/-- A `w`-byte argument, rejected when a shorter form holds it. -/
def wideArg (w bound : ℕ) (buf : Bytes) : Except CodecError (ℕ × Bytes) := do
  let (b, buf) ← take w buf
  if beNat b ≤ bound then .error .nonMinimalInt else .ok (beNat b, buf)

/-- A major type's argument with shortest-form enforcement. -/
def arg (ai : UInt8) (buf : Bytes) : Except CodecError (ℕ × Bytes) :=
  if ai ≤ 23 then .ok (ai.toNat, buf)
  else if ai = 24 then do
    let (b, buf) ← byte buf
    if b.toNat < 24 then .error .nonMinimalInt else .ok (b.toNat, buf)
  else if ai = 25 then wideArg 2 0xff buf
  else if ai = 26 then wideArg 4 0xffff buf
  else if ai = 27 then wideArg 8 0xffffffff buf
  else if ai ≤ 30 then .error .reservedAdditionalInfo
  else .error .indefiniteLength

def simpleOrFloat (ai : UInt8) (buf : Bytes) : Except CodecError (Value × Bytes) :=
  if ai = 20 then .ok (.bool false, buf)
  else if ai = 21 then .ok (.bool true, buf)
  else if ai = 22 then .ok (.null, buf)
  else if ai = 25 ∨ ai = 26 then .error .nonCanonicalFloat
  else if ai = 27 then do
    let (b, buf) ← take 8 buf
    let f := UInt64.ofNat (beNat b)
    if !isFinite f || (isZero f && isSignNegative f) then .error .nonCanonicalFloat
    else .ok (.float f, buf)
  else .error .unsupportedSimpleValue

def items (rd : Bytes → Except CodecError (Value × Bytes)) :
    ℕ → Bytes → Except CodecError (List Value × Bytes)
  | 0, buf => .ok ([], buf)
  | n + 1, buf => do
    let (v, buf) ← rd buf
    let (vs, buf) ← items rd n buf
    .ok (v :: vs, buf)

/-- The bytes read between two positions of the buffer. -/
def consumed (buf rest : Bytes) : Bytes := buf.take (buf.length - rest.length)

/-- Compare a key with the one before it: keys ascend strictly. -/
def checkKey (prev : Option Bytes) (key : Bytes) : Except CodecError Unit :=
  match prev with
  | none => .ok ()
  | some p =>
    if p < key then .ok ()
    else if key = p then .error .duplicateMapKey
    else .error .unsortedMapKeys

/-- `n` pairs in a row, each key and value read by `rd`, the key bytes ascending from `prev`. -/
def pairs (rd : Bytes → Except CodecError (Value × Bytes)) :
    ℕ → Option Bytes → Bytes → Except CodecError (List (Value × Value) × Bytes)
  | 0, _, buf => .ok ([], buf)
  | n + 1, prev, buf => do
    let (k, buf₁) ← rd buf
    checkKey prev (consumed buf buf₁)
    let (v, buf₂) ← rd buf₁
    let (ps, buf₃) ← pairs rd n (some (consumed buf buf₁)) buf₂
    .ok ((k, v) :: ps, buf₃)

/-- The value after its initial byte; `rd` reads the values inside it. -/
def body (rd : Bytes → Except CodecError (Value × Bytes)) (ib : UInt8) (buf : Bytes) :
    Except CodecError (Value × Bytes) :=
  let ai := ib &&& 0x1f
  match (ib >>> 5).toNat with
  | 0 => do
    let (n, buf) ← arg ai buf
    .ok (.uint (UInt64.ofNat n), buf)
  | 1 => do
    let (n, buf) ← arg ai buf
    .ok (.nint (UInt64.ofNat n), buf)
  | 2 => do
    let (n, buf) ← arg ai buf
    let (b, buf) ← take n buf
    .ok (.bytes b, buf)
  | 3 => do
    let (n, buf) ← arg ai buf
    let (b, buf) ← take n buf
    match strOfBytes? b with
    | some s => .ok (.text s, buf)
    | none => .error .invalidUtf8
  | 4 => do
    let (n, buf) ← arg ai buf
    let (vs, buf) ← items rd n buf
    .ok (.array vs, buf)
  | 5 => do
    let (n, buf) ← arg ai buf
    let (ps, buf) ← pairs rd n none buf
    .ok (.map ps, buf)
  | 6 => .error .tag
  | _ => simpleOrFloat ai buf

/-- One value, with `levels` nesting levels left. -/
def value : ℕ → Bytes → Except CodecError (Value × Bytes)
  | 0, _ => .error .depthExceeded
  | levels + 1, buf => do
    let (ib, buf) ← byte buf
    body (value levels) ib buf

end Reader

/-- Strictly decode a single canonical value, rejecting trailing bytes. -/
def decode (bytes : Bytes) : Except CodecError Value := do
  let (v, rest) ← Reader.value (maxDepth + 1) bytes
  if rest = [] then .ok v else .error .trailingBytes

/-! ## Object framing -/

def encodeObject (typeCode : UInt16) (fields : List Value) : Except CodecError Bytes :=
  encode (.array (.uint (UInt64.ofNat epoch) :: .uint (UInt64.ofNat typeCode.toNat) :: fields))

/-- The type code and the fields of a decoded object array. -/
def objectParts : Value → Except CodecError (UInt16 × List Value)
  | .array (.uint e :: ty :: fields) =>
    if e.toNat ≠ epoch then .error .wrongEpoch
    else
      match ty with
      | .uint t =>
        if t.toNat ≤ 0xffff then .ok (UInt16.ofNat t.toNat, fields) else .error .notAnObject
      | _ => .error .notAnObject
  | _ => .error .notAnObject

/-- Decode a Loom object array, checking the schema epoch. -/
def decodeObject (bytes : Bytes) : Except CodecError (UInt16 × List Value) :=
  decode bytes >>= objectParts

/-! ## Depth, canonical form, sizes -/

mutual

/-- The nesting depth: how many levels below a value its deepest part sits. -/
def depth : Value → ℕ
  | .array items => depthItems items
  | .map pairs => depthPairs pairs
  | _ => 0
termination_by structural v => v

def depthItems : List Value → ℕ
  | [] => 0
  | v :: vs => max (depth v + 1) (depthItems vs)
termination_by structural vs => vs

def depthPairs : List (Value × Value) → ℕ
  | [] => 0
  | (k, v) :: ps => max (max (depth k + 1) (depth v + 1)) (depthPairs ps)
termination_by structural ps => ps

end

/-- The bytes a value is ordered by as a map key. -/
def keyBytes (v : Value) : Bytes :=
  match encode v with
  | .ok b => b
  | .error _ => []

mutual

/-- The canonical form: every map's pairs in ascending encoded-key order, every `-0.0` a `+0.0`. -/
def canon : Value → Value
  | .array items => .array (canonItems items)
  | .map pairs => .map ((canonPairs pairs).insertionSort fun a b => keyBytes a.1 ≤ keyBytes b.1)
  | .float bits => .float (normalized bits)
  | v => v
termination_by structural v => v

def canonItems : List Value → List Value
  | [] => []
  | v :: vs => canon v :: canonItems vs
termination_by structural vs => vs

def canonPairs : List (Value × Value) → List (Value × Value)
  | [] => []
  | (k, v) :: ps => (canon k, canon v) :: canonPairs ps
termination_by structural ps => ps

end

mutual

/-- Every length fits a `u64`, as the length of every machine vector does. -/
def Sized : Value → Prop
  | .bytes b => b.length < 2 ^ 64
  | .text s => (strBytes s).length < 2 ^ 64
  | .array items => items.length < 2 ^ 64 ∧ SizedItems items
  | .map pairs => pairs.length < 2 ^ 64 ∧ SizedPairs pairs
  | _ => True
termination_by structural v => v

def SizedItems : List Value → Prop
  | [] => True
  | v :: vs => Sized v ∧ SizedItems vs
termination_by structural vs => vs

def SizedPairs : List (Value × Value) → Prop
  | [] => True
  | (k, v) :: ps => Sized k ∧ Sized v ∧ SizedPairs ps
termination_by structural ps => ps

end

end UldrenLoom.Codec
