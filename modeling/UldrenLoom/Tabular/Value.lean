import UldrenLoom.Lib.ByteString

/-!
# Tabular values and their keys

The typed cells of a table, their order-preserving key encoding and their comparison.

* `encodeKeyValue`, `encodePkValues`: a rank byte and an order-preserving body for each value. The
  source has this encoder twice, word for word, in `loom-types` and in `loom-core`.
-/

namespace UldrenLoom.Tabular

open ByteString

/-- The column types of a schema. -/
inductive ColumnType where
  | int | float | text | bool | bytes | i8 | i16 | i32 | i128 | u8 | u16 | u32 | u64 | u128 | f32
  | decimal | date | time | timestamp | interval | uuid | inet | point | list | map
deriving Repr, DecidableEq

/-- An IP address. -/
inductive IpAddr where
  | v4 (octets : BitVec 32)
  | v6 (octets : BitVec 128)
deriving Repr, DecidableEq

/-- The cell values of a table. -/
inductive Value where
  | null
  | bool (b : Bool)
  | int (i : BitVec 64)
  | float (bits : BitVec 64)
  | text (s : String)
  | bytes (b : Bytes)
  | i8 (x : BitVec 8)
  | i16 (x : BitVec 16)
  | i32 (x : BitVec 32)
  | i128 (x : BitVec 128)
  | u8 (x : BitVec 8)
  | u16 (x : BitVec 16)
  | u32 (x : BitVec 32)
  | u64 (x : BitVec 64)
  | u128 (x : BitVec 128)
  | f32 (bits : BitVec 32)
  | decimal (mantissa : BitVec 128) (scale : BitVec 32)
  | date (d : BitVec 32)
  | time (t : BitVec 64)
  | timestamp (t : BitVec 64)
  | interval (months : BitVec 32) (micros : BitVec 64)
  | uuid (u : BitVec 128)
  | inet (ip : IpAddr)
  | point (x y : BitVec 64)
  | list (items : List Value)
  | map (entries : List (Text × Value))
deriving Repr, Inhabited

namespace Value

def rank : Value → UInt8
  | null => 0
  | bool _ => 1
  | int _ => 2
  | float _ => 3
  | text _ => 4
  | bytes _ => 5
  | i8 _ => 6
  | i16 _ => 7
  | i32 _ => 8
  | i128 _ => 9
  | u8 _ => 10
  | u16 _ => 11
  | u32 _ => 12
  | u64 _ => 13
  | u128 _ => 14
  | f32 _ => 15
  | decimal _ _ => 16
  | date _ => 17
  | time _ => 18
  | timestamp _ => 19
  | interval _ _ => 20
  | uuid _ => 21
  | inet _ => 22
  | point _ _ => 23
  | list _ => 24
  | map _ => 25

/-- Whether a cell may stand in a column of the type; `null` may stand in any. -/
def «matches» : Value → ColumnType → Bool
  | null, _ => true
  | bool _, .bool => true
  | int _, .int => true
  | float _, .float => true
  | text _, .text => true
  | bytes _, .bytes => true
  | i8 _, .i8 => true
  | i16 _, .i16 => true
  | i32 _, .i32 => true
  | i128 _, .i128 => true
  | u8 _, .u8 => true
  | u16 _, .u16 => true
  | u32 _, .u32 => true
  | u64 _, .u64 => true
  | u128 _, .u128 => true
  | f32 _, .f32 => true
  | decimal _ _, .decimal => true
  | date _, .date => true
  | time _, .time => true
  | timestamp _, .timestamp => true
  | interval _ _, .interval => true
  | uuid _, .uuid => true
  | inet _, .inet => true
  | point _ _, .point => true
  | list _, .list => true
  | map _, .map => true
  | _, _ => false

end Value

/-! ## Keys -/

def signBit (w : ℕ) : BitVec w := BitVec.twoPow w (w - 1)

variable {w : ℕ}

/-- Flip the sign bit: signed order becomes unsigned order. -/
def signFlip (x : BitVec w) : BitVec w := x ^^^ signBit w

/-- The total-order transform of a float: negatives flip all bits, others set the sign bit. -/
def floatKey (bits : BitVec w) : BitVec w :=
  if bits &&& signBit w ≠ 0 then ~~~bits else bits ||| signBit w

def toBeBytes (w : ℕ) {n : ℕ} (x : BitVec n) : Bytes := beBytes w x.toNat

/-- Seven bits a byte, low ones first; the high bit says that another byte follows. -/
def putUvarint (v : ℕ) : Bytes :=
  if h : v / 128 ≠ 0 then (UInt8.ofNat (v % 128) ||| 0x80) :: putUvarint (v / 128)
  else [UInt8.ofNat (v % 128)]
termination_by v
decreasing_by omega

/-- Byte-stuffed and closed by two zero bytes: `00` becomes `00 ff`. -/
def encodeOrderpreservingBytes : Bytes → Bytes
  | [] => [0x00, 0x00]
  | b :: bs =>
    if b = 0x00 then 0x00 :: 0xff :: encodeOrderpreservingBytes bs
    else b :: encodeOrderpreservingBytes bs

/-- The decimal digits of a positive number in ASCII, most significant first. -/
def digitBytes (n : ℕ) : Bytes := (Nat.digits 10 n).reverse.map fun d => UInt8.ofNat d + 48

/-- Drop trailing zero digits, but never the leading digit. -/
def stripZeros : Bytes → Bytes
  | [] => []
  | d :: ds => d :: ds.rdropWhile (· == 48)

/-- The key of the decimal `mantissa * 10 ^ (-scale)`. -/
def encodeDecimalKey (mantissa : BitVec 128) (scale : BitVec 32) : Bytes :=
  if mantissa.toInt = 0 then [0x80]
  else
    let digits := digitBytes mantissa.toInt.natAbs
    let e : ℤ := digits.length - scale.toNat - 1
    let exp := toBeBytes 8 (signFlip (BitVec.ofInt 64 e))
    if 0 < mantissa.toInt then
      0x81 :: (exp ++ ((stripZeros digits).map fun d => d - 48 + 1) ++ [0x00])
    else
      0x7f :: ((exp.map fun b => ~~~b) ++
        ((stripZeros digits).map fun d => 10 - (d - 48)) ++ [0xff])

/-- The key of an address: the family, then the octets. -/
def encodeInetKey : IpAddr → Bytes
  | .v4 a => 0 :: toBeBytes 4 a
  | .v6 a => 1 :: toBeBytes 16 a

mutual

/-- One value of an order-preserving key. -/
def encodeKeyValue (v : Value) : Bytes :=
  v.rank :: match v with
    | .null => []
    | .bool b => [if b then 1 else 0]
    | .int i => toBeBytes 8 (signFlip i)
    | .float f => toBeBytes 8 (floatKey f)
    | .text s => encodeOrderpreservingBytes (strBytes s)
    | .bytes b => encodeOrderpreservingBytes b
    | .i8 x => toBeBytes 1 (signFlip x)
    | .i16 x => toBeBytes 2 (signFlip x)
    | .i32 x => toBeBytes 4 (signFlip x)
    | .i128 x => toBeBytes 16 (signFlip x)
    | .u8 x => toBeBytes 1 x
    | .u16 x => toBeBytes 2 x
    | .u32 x => toBeBytes 4 x
    | .u64 x => toBeBytes 8 x
    | .u128 x => toBeBytes 16 x
    | .f32 f => toBeBytes 4 (floatKey f)
    | .decimal mantissa scale => encodeDecimalKey mantissa scale
    | .date d => toBeBytes 4 (signFlip d)
    | .time t => toBeBytes 8 t
    | .timestamp t => toBeBytes 8 (signFlip t)
    | .interval months micros => toBeBytes 4 (signFlip months) ++ toBeBytes 8 (signFlip micros)
    | .uuid u => toBeBytes 16 u
    | .inet ip => encodeInetKey ip
    | .point x y => toBeBytes 8 (floatKey x) ++ toBeBytes 8 (floatKey y)
    | .list items => putUvarint items.length ++ encodeKeyItems items
    | .map entries => putUvarint entries.length ++ encodeKeyEntries entries
termination_by structural v

def encodeKeyItems : List Value → Bytes
  | [] => []
  | v :: vs => encodeKeyValue v ++ encodeKeyItems vs
termination_by structural vs => vs

/-- The entries of a map, each key byte-stuffed and followed by its value. -/
def encodeKeyEntries : List (Text × Value) → Bytes
  | [] => []
  | (k, v) :: es =>
    encodeOrderpreservingBytes (strBytes k) ++ (encodeKeyValue v ++ encodeKeyEntries es)
termination_by structural es => es

end

def encodePkValues (pk : List Value) : Bytes := pk.flatMap encodeKeyValue

/-! ## The comparison of values -/

abbrev cmpBytes : Bytes → Bytes → Ordering := List.compareLex compare

/-- The integer `total_cmp` compares floats by: negatives have their other bits flipped. -/
def totalOrderInt (bits : BitVec w) : ℤ :=
  (bits ^^^ (bits.sshiftRight (w - 1) >>> 1)).toInt

def totalCmp (a b : BitVec w) : Ordering := compare (totalOrderInt a) (totalOrderInt b)

def signedCmp (a b : BitVec w) : Ordering := compare a.toInt b.toInt

def unsignedCmp (a b : BitVec w) : Ordering := compare a.toNat b.toNat

/-- `Ord for Value`: by rank across types, by key bytes for decimals and composites. -/
def Value.cmp (v w : Value) : Ordering :=
  match v, w with
  | .bool a, .bool b => compare a b
  | .int a, .int b => signedCmp a b
  | .float a, .float b => totalCmp a b
  | .text a, .text b => cmpBytes (strBytes a) (strBytes b)
  | .bytes a, .bytes b => cmpBytes a b
  | .i8 a, .i8 b => signedCmp a b
  | .i16 a, .i16 b => signedCmp a b
  | .i32 a, .i32 b => signedCmp a b
  | .i128 a, .i128 b => signedCmp a b
  | .u8 a, .u8 b => unsignedCmp a b
  | .u16 a, .u16 b => unsignedCmp a b
  | .u32 a, .u32 b => unsignedCmp a b
  | .u64 a, .u64 b => unsignedCmp a b
  | .u128 a, .u128 b => unsignedCmp a b
  | .f32 a, .f32 b => totalCmp a b
  | .date a, .date b => signedCmp a b
  | .time a, .time b => unsignedCmp a b
  | .timestamp a, .timestamp b => signedCmp a b
  | .uuid a, .uuid b => unsignedCmp a b
  | .decimal _ _, .decimal _ _ => cmpBytes (encodeKeyValue v) (encodeKeyValue w)
  | .interval _ _, .interval _ _ => cmpBytes (encodeKeyValue v) (encodeKeyValue w)
  | .inet _, .inet _ => cmpBytes (encodeKeyValue v) (encodeKeyValue w)
  | .point _ _, .point _ _ => cmpBytes (encodeKeyValue v) (encodeKeyValue w)
  | .list _, .list _ => cmpBytes (encodeKeyValue v) (encodeKeyValue w)
  | .map _, .map _ => cmpBytes (encodeKeyValue v) (encodeKeyValue w)
  | _, _ => compare v.rank w.rank

end UldrenLoom.Tabular
