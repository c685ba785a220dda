import UldrenLoom.Lib.Wire
import UldrenLoom.Vcs.Object
import UldrenLoom.Lib.Hex

/-!
# Written digests

* `DigestCode`: how digests are written in the engine state and in records. The word of a digest ends
  by itself, as the 32 bytes of the source do.
-/

namespace UldrenLoom.Vcs

open ByteString

/-- The digest algorithms. -/
inductive Algo where
  | blake3
  | sha256
deriving Repr, DecidableEq

def Algo.asStr : Algo → Path
  | .blake3 => "blake3".toList
  | .sha256 => "sha256".toList

def Algo.fromName (name : Path) : Result Algo :=
  if name = "blake3".toList then .ok .blake3
  else if name = "sha256".toList then .ok .sha256
  else .error ⟨.unsupported, "unknown digest algo '" ++ String.ofList name ++ "'"⟩

theorem Algo.fromName_asStr (algo : Algo) : fromName algo.asStr = .ok algo := by
  cases algo <;> rfl

def truncated : LoomError := .corrupt "engine-state bytes truncated"

/-- How digests are written. -/
class DigestCode (D : Type) where
  /-- The algorithm of the store. -/
  algo : Algo
  bytes : D → Bytes
  ofBytes : Bytes → Option D
  ofBytes_bytes : ∀ d, ofBytes (bytes d) = some d
  read : Wire.Reader LoomError D
  reads : ∀ d, Wire.Reads read (bytes d) d

variable {D : Type}

/-! ## Digests as text -/

def debugChar (c : Char) : String :=
  let quote := Char.ofNat 39
  if c = quote then String.ofList [quote, '\\', quote, quote]
  else if c = '"' then String.ofList [quote, '"', quote]
  else String.ofList (quote :: escapeDebug c ++ [quote])

def hexError (s : Path) : String :=
  if s.bytes.length % 2 = 1 then "Odd number of digits"
  else
    match s.bytes.findIdx? fun b => (Hex.value (Char.ofNat b.toNat)).isNone with
    | some i => "Invalid character " ++ debugChar (Char.ofNat (s.bytes.getD i 0).toNat) ++
        " at position " ++ toString i
    | none => "Invalid string length"

def digestText [DigestCode D] (d : D) : Path :=
  (DigestCode.algo D).asStr ++ ':' :: Hex.encode (DigestCode.bytes d)

/-- The digest of a text. The algorithm is only checked for being known. -/
def parseDigest [DigestCode D] (s : Path) : Result D :=
  match s.span (· ≠ ':') with
  | (name, _ :: hex) => do
    let _ ← Algo.fromName name
    match Hex.decode hex with
    | none => .error (.invalid ("bad digest hex: " ++ hexError hex))
    | some raw =>
      match DigestCode.ofBytes raw with
      | some d => .ok d
      | none => .error (.invalid "digest must be 32 bytes")
  | (_, []) => .error (.invalid "digest missing 'algo:' prefix")

/-- **A digest is read back from its text.** -/
theorem parseDigest_digestText [DigestCode D] (d : D) : parseDigest (digestText d) = .ok d := by
  have hspan : (digestText d).span (· ≠ ':') =
      ((DigestCode.algo D).asStr, ':' :: Hex.encode (DigestCode.bytes d)) := by
    unfold digestText
    cases DigestCode.algo D <;> simp [Algo.asStr, List.span_eq_takeWhile_dropWhile]
  rw [parseDigest, hspan]
  simp only [Algo.fromName_asStr, Hex.decode_encode, DigestCode.ofBytes_bytes]
  rfl

theorem digestText_injective [DigestCode D] : Function.Injective (digestText : D → Path) := by
  intro d e h
  have hd := parseDigest_digestText d
  rw [h, parseDigest_digestText] at hd
  exact (Except.ok.inj hd).symm

/-! ## Digests of 32 bytes -/

/-- A digest of 32 bytes. -/
@[ext]
structure Digest where
  bytes : Bytes
  length_bytes : bytes.length = 32
deriving Repr

instance : DecidableEq Digest := fun _ _ => decidable_of_iff _ Digest.ext_iff.symm

/-- Digests are written as their bytes. -/
@[reducible] def Digest.code (algo : Algo) : DigestCode Digest where
  algo := algo
  bytes := Digest.bytes
  ofBytes bs := if h : bs.length = 32 then some ⟨bs, h⟩ else none
  ofBytes_bytes d := dif_pos d.length_bytes
  read := do
    let bs ← Wire.takeExact truncated 32
    return ⟨bs.1, bs.2⟩
  reads d := (Wire.reads_takeExact truncated d.length_bytes).bind_pure

end UldrenLoom.Vcs
