import UldrenLoom.Codec.Model
import UldrenLoom.Lib.Effect

/-!
# Errors and positional fields

What the object model and the facets share on top of the codec.

* `Cbor.Fields`: consume the fields of a decoded array one by one with a type check for each. The
  source has the same conversions twice, in `loom-core` and in `loom-types`.
-/

namespace UldrenLoom

open ByteString

/-- The error codes the modelled functions raise. -/
inductive Code where
  | notFound
  | alreadyExists
  | corruptObject
  | integrityFailure
  | invalidArgument
  | casMismatch
  | permissionDenied
  | conflict
  | unsupported
  | io
  | notFastForward
  | locked
  | lockLeaseExpired
  | fencingStale
  | lockNotHeld
  | resourceExhausted
  | internal
  | e2eKeyInvalid
  | cursorInvalid
  | retainedGap
deriving Repr, DecidableEq

/-- An error: a code and a message. -/
structure LoomError where
  code : Code
  message : String
deriving Repr, DecidableEq

namespace LoomError

def corrupt (message : String) : LoomError := ⟨.corruptObject, message⟩

def invalid (message : String) : LoomError := ⟨.invalidArgument, message⟩

def notFound (message : String) : LoomError := ⟨.notFound, message⟩

end LoomError

abbrev Result := Except LoomError

/-- A call that reads and writes a state and may fail. -/
abbrev Update (σ : Type) := Effect σ LoomError

def Codec.CodecError.text : Codec.CodecError → String
  | .unexpectedEof => "unexpected end of input"
  | .trailingBytes => "trailing bytes after the top-level item"
  | .indefiniteLength => "indefinite-length item"
  | .nonMinimalInt => "non-minimal integer/length encoding"
  | .reservedAdditionalInfo => "reserved additional-info value (28-30)"
  | .invalidUtf8 => "invalid UTF-8 in a text string"
  | .unsortedMapKeys => "map keys not in ascending canonical order"
  | .duplicateMapKey => "duplicate map key"
  | .tag => "CBOR tags are not part of the profile"
  | .nonCanonicalFloat => "non-canonical float (NaN, infinity, -0.0, or non-64-bit width)"
  | .unsupportedSimpleValue => "unsupported simple value"
  | .depthExceeded => "nesting deeper than MAX_DEPTH"
  | .notAnObject => "not a Loom object array"
  | .wrongEpoch => "wrong schema epoch"

namespace Cbor

open Codec (Value CodecError)

def err (e : CodecError) : LoomError := .corrupt ("cbor: " ++ e.text)

/-- The canonical bytes of a value. The source unwraps the result, so an error is a panic. -/
def encode (v : Value) : Result Bytes := (Codec.encode v).mapError err

def decode (bytes : Bytes) : Result Value := (Codec.decode bytes).mapError err

theorem encode_eq_ok {v : Value} {b : Bytes} : encode v = .ok b ↔ Codec.encode v = .ok b := by
  unfold encode
  cases Codec.encode v <;> simp [Except.mapError]

theorem decode_eq_ok {b : Bytes} {v : Value} : decode b = .ok v ↔ Codec.decode b = .ok v := by
  unfold decode
  cases Codec.decode b <;> simp [Except.mapError]

/-! ## Conversions -/

def asUint : Value → Result UInt64
  | .uint n => .ok n
  | _ => .error (.corrupt "expected a uint")

def asInt : Value → Result ℤ
  | .uint n =>
    if n.toNat < 2 ^ 63 then .ok n.toNat else .error (.corrupt "integer out of i64 range")
  | .nint n =>
    if n.toNat < 2 ^ 63 then .ok (-1 - n.toNat) else .error (.corrupt "integer out of i64 range")
  | _ => .error (.corrupt "expected an integer")

def asBool : Value → Result Bool
  | .bool b => .ok b
  | _ => .error (.corrupt "expected a bool")

def asBytes : Value → Result Bytes
  | .bytes b => .ok b
  | _ => .error (.corrupt "expected a byte string")

def asText : Value → Result String
  | .text s => .ok s
  | _ => .error (.corrupt "expected a text string")

def asArray : Value → Result (List Value)
  | .array items => .ok items
  | _ => .error (.corrupt "expected an array")

def asMap : Value → Result (List (Value × Value))
  | .map pairs => .ok pairs
  | _ => .error (.corrupt "expected a map")

def decodeArray (bytes : Bytes) : Result (List Value) := decode bytes >>= asArray

/-! ## Fields -/

/-- A computation that consumes fields. -/
abbrev Fields := StateT (List Value) Result

namespace Fields

def nextField : Fields Value
  | [] => .error (.corrupt "missing field")
  | v :: vs => .ok (v, vs)

def next {α : Type} (as : Value → Result α) : Fields α := do as (← nextField)

def uint : Fields UInt64 := next asUint

def int : Fields ℤ := next asInt

def bool : Fields Bool := next asBool

def bytes : Fields Bytes := next asBytes

def text : Fields String := next asText

def array : Fields (List Value) := next asArray

def map : Fields (List (Value × Value)) := next asMap

def «end» : Fields Unit
  | [] => .ok ((), [])
  | _ :: _ => .error (.corrupt "unexpected extra fields")

theorem bind_of_ok {α β : Type} {x : Fields α} {f : α → Fields β} {s s' : List Value} {a : α}
    (h : x s = .ok (a, s')) : (x >>= f) s = f a s' := by
  change (x s >>= fun p => f p.1 p.2) = _
  rw [h]
  rfl

theorem lift_of_ok {α : Type} {x : Result α} {a : α} (h : x = .ok a) (vs : List Value) :
    (liftM x : Fields α) vs = .ok (a, vs) := by
  subst h
  rfl

theorem uint_cons (n : UInt64) (vs : List Value) : uint (.uint n :: vs) = .ok (n, vs) := rfl

theorem text_cons (s : String) (vs : List Value) : text (.text s :: vs) = .ok (s, vs) := rfl

theorem array_cons (items vs : List Value) : array (.array items :: vs) = .ok (items, vs) := rfl

theorem map_cons (pairs : List (Value × Value)) (vs : List Value) :
    map (.map pairs :: vs) = .ok (pairs, vs) := rfl

end Fields

end Cbor

end UldrenLoom
