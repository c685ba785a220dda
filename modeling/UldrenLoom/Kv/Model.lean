import UldrenLoom.Tabular.Row
import UldrenLoom.Vcs.Digest
import UldrenLoom.Vcs.Registry

/-!
# The key-value facet

A versioned map from typed keys to bytes. Each key has a mutation anchor that outlives its entry.

Writing and reading the collection's own files is granted and does not fail. Where the source encodes
into a vector, `encodeVec` makes sure that it can be one.
-/

set_option linter.unusedSectionVars false

namespace UldrenLoom.Kv

open ByteString Cbor Tabular Prolly
open Vcs (Algo DigestCode WorkspaceId)

/-! ## Maps keyed by values -/

/-- A `BTreeMap` keyed by values, which compare as their key bytes do: it is kept by key bytes, with
the value that stands for the key. -/
structure KeyMap (α : Type) where
  map : SortedMap Bytes (Value × α)
  keyed : ∀ {k e}, map.get k = some e → encodeKeyValue e.1 = k

namespace KeyMap

variable {α : Type}

def empty : KeyMap α := ⟨SortedMap.empty, fun h => absurd h (by simp)⟩

variable (m : KeyMap α)

/-- The keys and what they are mapped to, in key order. -/
def entries : List (Value × α) := m.map.entries.map Prod.snd

def get (key : Value) : Option α := (m.map.get (encodeKeyValue key)).map Prod.snd

/-- Map a key to something, under the given value. -/
def set (key : Value) (a : α) : KeyMap α where
  map := m.map.insert (encodeKeyValue key) (key, a)
  keyed := by
    intro k e h
    rw [SortedMap.get_insert] at h
    split_ifs at h with hk
    · rw [← Option.some.inj h, hk]
    · exact m.keyed h

/-- `BTreeMap::insert`: the value that already stands for the key stays. -/
def insert (key : Value) (a : α) : KeyMap α :=
  match m.map.get (encodeKeyValue key) with
  | some e => m.set e.1 a
  | none => m.set key a

def erase (key : Value) : KeyMap α where
  map := m.map.erase (encodeKeyValue key)
  keyed := by
    intro k e h
    rw [SortedMap.get_erase] at h
    split_ifs at h
    exact m.keyed h

end KeyMap

/-! ## The map of a collection -/

/-- A byte vector that no machine can hold. -/
def oversize : LoomError := .corrupt "capacity overflow"

def encodeVec (v : Codec.Value) : Result Bytes := do
  let b ← Cbor.encode v
  if b.length < 2 ^ 64 then .ok b else .error oversize

/-- The entries, and the mutation anchors, which outlive the entries. -/
structure KvMap where
  anchors : KeyMap UInt64
  entries : KeyMap Bytes

def entryFields : Fields (Value × Bytes) := do
  let key ← Fields.next cellFrom
  let val ← Fields.bytes
  Fields.end
  return (key, val)

def anchorFields : Fields (Value × UInt64) := do
  let key ← Fields.next cellFrom
  let anchor ← Fields.uint
  Fields.end
  if anchor = 0 then throw (.corrupt "KV anchor must be greater than zero")
  return (key, anchor)

variable {α : Type}

def readItem (fields : Fields (Value × α)) (duplicate : String) (m : KeyMap α)
    (item : Codec.Value) : Result (KeyMap α) := do
  let (key, a) ← StateT.run' fields (← asArray item)
  if (m.get key).isSome then .error (.corrupt duplicate) else .ok (m.insert key a)

def readItems (fields : Fields (Value × α)) (duplicate : String)
    (items : List Codec.Value) : Result (KeyMap α) :=
  items.foldlM (readItem fields duplicate) KeyMap.empty

/-- The anchor of all keys, if the format has one, the entries and the anchors. -/
def formatOf (encoded : List Codec.Value) :
    Option UInt64 × List Codec.Value × List Codec.Value :=
  match encoded with
  | [.uint version, .uint anchor, .array entries] =>
    if version = 1 then (some anchor, entries, []) else (some 0, encoded, [])
  | [.uint version, .array entries, .array anchors] =>
    if version = 2 then (none, entries, anchors) else (some 0, encoded, [])
  | _ => (some 0, encoded, [])

namespace KvMap

def new : KvMap := ⟨KeyMap.empty, KeyMap.empty⟩

def anchor (m : KvMap) (key : Value) : UInt64 := (m.anchors.get key).getD 0

def get (m : KvMap) (key : Value) : Option Bytes := m.entries.get key

def decode (bytes : Bytes) : Result KvMap := do
  let encoded ← decodeArray bytes
  let (legacyAnchor, entries, anchors) := formatOf encoded
  let entries ← readItems entryFields "duplicate KV entry key" entries
  let anchors ← readItems anchorFields "duplicate KV anchor key" anchors
  match legacyAnchor with
  | none =>
    if entries.entries.any fun e => (anchors.get e.1).isNone then
      .error (.corrupt "live KV entry is missing an anchor")
    else .ok ⟨anchors, entries⟩
  | some anchor => .ok ⟨entries.entries.foldl (fun m e => m.insert e.1 anchor) anchors, entries⟩

end KvMap

def exhausted : LoomError := ⟨.conflict, "KV mutation anchor exhausted"⟩

def advanceKvAnchor (anchor : UInt64) : Result UInt64 :=
  if anchor.toNat + 1 < 2 ^ 64 then .ok (anchor + 1) else .error exhausted

def KvMap.advanceAnchor (m : KvMap) (key : Value) : Result KvMap := do
  .ok { m with anchors := m.anchors.insert key (← advanceKvAnchor (m.anchor key)) }

/-! ## Entries and anchors in the trees -/

def algoCode : Algo → UInt8
  | .blake3 => 0x1e
  | .sha256 => 0x12

def algoFromCode (code : UInt8) : Result Algo :=
  if code = 0x1e then .ok .blake3
  else if code = 0x12 then .ok .sha256
  else .error ⟨.unsupported, "unknown digest algo code 0x" ++ String.ofList (Hex.encode [code])⟩

def kvOrderedKey (key : Value) : Bytes := encodePkValues [key]

section Records

variable {D : Type} [DigestCode D]

def digestFromBytes (bytes : Bytes) : Result D :=
  match DigestCode.ofBytes bytes with
  | some d => .ok d
  | none => .error (.corrupt "digest field is not 32 bytes")

/-- The record of an entry: its key, and the digest and length of its value. -/
def encodeKvEntry (key : Value) (digest : D) (len : ℕ) : Result Bytes :=
  encodeVec (.array [cellValue key, .bytes (DigestCode.bytes digest), .uint (UInt64.ofNat len)])

def decodeKvEntry (bytes : Bytes) : Result (Value × D × UInt64) := do
  let fields : Fields (Value × D × UInt64) := do
    let key ← Fields.next cellFrom
    let digest ← digestFromBytes (← Fields.bytes)
    let len ← Fields.uint
    Fields.end
    return (key, digest, len)
  StateT.run' fields (← decodeArray bytes)

def encodeKvAnchor (key : Value) (anchor : UInt64) : Result Bytes :=
  encodeVec (.array [cellValue key, .uint anchor])

def decodeKvAnchor (bytes : Bytes) : Result (Value × UInt64) := do
  StateT.run' anchorFields (← decodeArray bytes)

def prollyMapRootSchema : String := "loom.kv.prolly-map-root.v1"

/-- The roots of the two trees of a collection. -/
structure KvProllyRoot (D : Type) where
  entries : Option D
  anchors : Option D

def optionalDigestValue : Option D → Codec.Value
  | none => .null
  | some d => .bytes (DigestCode.bytes d)

def optionalDigestFromValue : Codec.Value → Result (Option D)
  | .null => .ok none
  | .bytes b => (digestFromBytes b).map some
  | _ => .error (.corrupt "expected KV prolly root digest or null")

def encodeProllyRoot (root : KvProllyRoot D) : Result Bytes :=
  encodeVec (.array [.text prollyMapRootSchema,
    .uint (UInt64.ofNat (algoCode (DigestCode.algo D)).toNat),
    optionalDigestValue root.entries, optionalDigestValue root.anchors])

def prollyRootFields : Fields (KvProllyRoot D) := do
  let schema ← Fields.text
  if schema ≠ prollyMapRootSchema then throw (.corrupt "not a KV prolly root")
  let code ← Fields.uint
  if 256 ≤ code.toNat then throw (.corrupt "value out of u8 range")
  let algo ← algoFromCode code.toUInt8
  if algo ≠ DigestCode.algo D then throw (.corrupt "KV structured root digest profile mismatch")
  let entries ← Fields.next optionalDigestFromValue
  let anchors ← Fields.next optionalDigestFromValue
  Fields.end
  return ⟨entries, anchors⟩

def isProllyRoot (root : List Codec.Value) : Bool :=
  match root.head? with
  | some (.text schema) => schema == prollyMapRootSchema
  | _ => false

def isSchema (root : List Codec.Value) : Bool :=
  match root.head? with
  | some (.text _) => true
  | _ => false

end Records

/-! ## A collection -/

/-- What is stored of one collection. -/
structure Collection {D : Type} (hash : Node D → D) where
  /-- The file at the map path. -/
  root : Option Bytes
  /-- The value files; their paths end in the digest. -/
  values : D → Option Bytes
  store : MemoryStore hash

/-- How nodes are cut, the content address of a value, and the names. -/
structure Env (D : Type) where
  isBoundary : Bytes → ℕ → Bool
  contentAddress : Bytes → D
  ns : WorkspaceId
  collection : String

variable {D : Type} [DigestCode D] [DecidableEq D] [ToString D] {hash : Node D → D} (env : Env D)

def structuredValuePath (digest : D) : String :=
  ".loom/facets/kv/.values/" ++ String.ofList (Hex.encode (strBytes env.collection)) ++ "/" ++
    String.ofList (Hex.encode (DigestCode.bytes digest))

variable (c : Collection hash)

/-- The value of an entry's record: the file, checked against the record. -/
def readValue (digest : D) (len : UInt64) : Result Bytes :=
  match c.values digest with
  | none => .error (.notFound ("\"" ++ structuredValuePath env digest ++ "\" not staged"))
  | some value =>
    if UInt64.ofNat value.length ≠ len then
      .error ⟨.integrityFailure, "KV value length mismatch"⟩
    else if env.contentAddress value ≠ digest then
      .error ⟨.integrityFailure, "KV value digest mismatch"⟩
    else .ok value

/-- Read the entries of a tree into a map; `previous` is the key before. -/
def treeMap {α β : Type} (kind : String) (decode : Bytes → Result (Value × β))
    (value : Value → β → Result α) :
    (previous : Option Bytes) → List (Bytes × Bytes) → KeyMap α → Result (KeyMap α)
  | _, [], m => .ok m
  | previous, (key, record) :: es, m =>
    if previous.any (fun p => key ≤ p) then
      .error (.corrupt ("KV " ++ kind ++ " keys are not strictly sorted"))
    else do
      let (decodedKey, b) ← decode record
      if key ≠ kvOrderedKey decodedKey then
        .error (.corrupt ("KV " ++ kind ++ " key codec mismatch"))
      else do
        let a ← value decodedKey b
        if (m.get decodedKey).isSome then
          .error (.corrupt ("duplicate KV structured root " ++ kind))
        else treeMap kind decode value (some key) es (m.insert decodedKey a)

def decodeProllyRootAsMap (root : List Codec.Value) : Result KvMap := do
  let prolly ← StateT.run' (prollyRootFields (D := D)) root
  let anchors ← treeMap "anchor" decodeKvAnchor (fun _ a => .ok a) none
    (← entriesOf c.store.readNode prolly.anchors) KeyMap.empty
  let entries ← treeMap "entry" decodeKvEntry (fun key (record : D × UInt64) => do
      if (anchors.get key).isNone then .error (.corrupt "live KV entry is missing an anchor")
      readValue env c record.1 record.2) none
    (← entriesOf c.store.readNode prolly.entries) KeyMap.empty
  .ok ⟨anchors, entries⟩

def decodeKvStorage (bytes : Bytes) : Result KvMap := do
  let root ← decodeArray bytes
  if isProllyRoot root then decodeProllyRootAsMap env c root
  else if isSchema root then .error (.corrupt "unsupported KV storage root schema")
  else KvMap.decode bytes

def loadOrEmpty : Result KvMap :=
  match c.root with
  | none => .ok KvMap.new
  | some bytes => decodeKvStorage env c bytes

/-- The prolly root of a collection, if its root file is one. -/
def readProllyRoot : Result (Option (KvProllyRoot D)) :=
  match c.root with
  | none => .ok none
  | some bytes => do
    let root ← decodeArray bytes
    if isProllyRoot root then do
      .ok (some (← StateT.run' prollyRootFields root))
    else .ok none

def lookup (root : Option D) (key : Value) : Result (Option Bytes) :=
  match root with
  | none => .ok none
  | some r => Prolly.get c.store.readNode r (kvOrderedKey key)

variable (root : KvProllyRoot D)

def kvAnchorFromRoot (key : Value) : Result UInt64 := do
  match ← lookup c root.anchors key with
  | none => .ok 0
  | some encoded =>
    let (decodedKey, anchor) ← decodeKvAnchor encoded
    if decodedKey.cmp key ≠ .eq then .error (.corrupt "KV anchor key codec mismatch")
    .ok anchor

/-! ## Reading -/

def kvGetProlly (key : Value) : Result (Option Bytes) := do
  match ← lookup c root.entries key with
  | none => .ok none
  | some encoded =>
    let (decodedKey, digest, len) ← decodeKvEntry encoded
    if decodedKey.cmp key ≠ .eq then .error (.corrupt "KV entry key codec mismatch")
    .ok (some (← readValue env c digest len))

def kvGet (key : Value) : Result (Option Bytes) := do
  match ← readProllyRoot c with
  | some root => kvGetProlly env c root key
  | none => .ok ((← loadOrEmpty env c).get key)

def kvExactTokenFor (key : Value) (anchor : UInt64) : Result Bytes :=
  encodeVec (.array [.bytes env.ns.bytes, .text env.collection, cellValue key, .uint anchor])

def kvExactToken (key : Value) : Result (Option Bytes) := do
  match ← readProllyRoot c with
  | some root =>
    match ← kvGet env c key with
    | some _ => .ok (some (← kvExactTokenFor env key (← kvAnchorFromRoot c root key)))
    | none => .ok none
  | none =>
    let map ← loadOrEmpty env c
    match map.get key with
    | some _ => .ok (some (← kvExactTokenFor env key (map.anchor key)))
    | none => .ok none

/-! ## Writing -/

abbrev Call (hash : Node D → D) (α : Type) : Type := Update (Collection hash) α

def onStore (f : MemoryStore hash → Result (α × MemoryStore hash)) : Call hash α :=
  Effect.ofExec fun c =>
    match f c.store with
    | .ok (a, s) => (.ok a, { c with store := s })
    | .error e => (.error e, c)

def writeValue (value : Bytes) : Call hash Unit := modify fun c =>
  { c with values := fun d => if d = env.contentAddress value then some value else c.values d }

def writeProllyRoot : Call hash Unit := do
  let bytes ← encodeProllyRoot root
  modify fun c => { c with root := some bytes }

def treeEntry (e : Value × Bytes) : Result (Bytes × Bytes) := do
  .ok (kvOrderedKey e.1, ← encodeKvEntry e.1 (env.contentAddress e.2) e.2.length)

def treeAnchor (e : Value × UInt64) : Result (Bytes × Bytes) := do
  .ok (kvOrderedKey e.1, ← encodeKvAnchor e.1 e.2)

def encodeStructuredRoot (map : KvMap) : Call hash (KvProllyRoot D) := do
  let entries ← (map.entries.entries.mapM (treeEntry env) : Result _)
  let anchors ← (map.anchors.entries.mapM treeAnchor : Result _)
  let entriesRoot ← onStore (build env.isBoundary entries)
  let anchorsRoot ← onStore (build env.isBoundary anchors)
  return ⟨entriesRoot, anchorsRoot⟩

/-- Stage a whole map: its value files, its trees and its root file; other value files go. -/
def stageKv (map : KvMap) : Call hash Unit := do
  map.entries.entries.forM fun e => writeValue env e.2
  let root ← encodeStructuredRoot env map
  let live := map.entries.entries.map fun e => env.contentAddress e.2
  let bytes ← encodeProllyRoot root
  modify fun c => { c with values := fun d => if d ∈ live then c.values d else none }
  modify fun c => { c with root := some bytes }

def nextAnchor (key : Value) : Call hash UInt64 := do
  advanceKvAnchor (← kvAnchorFromRoot (← get) root key)

def kvPutProlly (key : Value) (value : Bytes) : Call hash Unit := do
  let anchor ← nextAnchor root key
  let digest := env.contentAddress value
  writeValue env value
  let entry ← encodeKvEntry key digest value.length
  let entries ← onStore (Prolly.insert env.isBoundary root.entries (kvOrderedKey key) entry)
  let record ← encodeKvAnchor key anchor
  let anchors ← onStore (Prolly.insert env.isBoundary root.anchors (kvOrderedKey key) record)
  writeProllyRoot ⟨some entries, some anchors⟩

def kvDeleteProlly (key : Value) : Call hash Bool := do
  let c ← get
  match root.entries with
  | none => return false
  | some entriesRoot =>
    if (← Prolly.get c.store.readNode entriesRoot (kvOrderedKey key)).isNone then return false
    else
      let anchor ← nextAnchor root key
      let entries ← onStore (Prolly.remove env.isBoundary entriesRoot (kvOrderedKey key))
      let record ← encodeKvAnchor key anchor
      let anchors ← onStore (Prolly.insert env.isBoundary root.anchors (kvOrderedKey key) record)
      writeProllyRoot ⟨entries, some anchors⟩
      return true

def stagePut (map : KvMap) (key : Value) (value : Bytes) : Call hash Unit := do
  let map ← KvMap.advanceAnchor { map with entries := map.entries.insert key value } key
  stageKv env map

/-- Remove a key of a map, and stage the map if the key was there. -/
def stageDelete (map : KvMap) (key : Value) : Call hash Bool := do
  if (map.get key).isSome then
    let map ← KvMap.advanceAnchor { map with entries := map.entries.erase key } key
    stageKv env map
    return true
  else return false

/-- Go on below the prolly root of the collection, or with its whole map. -/
def dispatch (prolly : KvProllyRoot D → Call hash α) (whole : KvMap → Call hash α) :
    Call hash α := do
  match ← readProllyRoot (← get) with
  | some root => prolly root
  | none => whole (← loadOrEmpty env (← get))

def kvPut (key : Value) (value : Bytes) : Call hash Unit :=
  dispatch env (fun root => kvPutProlly env root key value) fun map => stagePut env map key value

/-- Remove a key; the result is whether it was present. -/
def kvDelete (key : Value) : Call hash Bool :=
  dispatch env (fun root => kvDeleteProlly env root key) fun map => stageDelete env map key

/-- A condition on the current entry. -/
inductive KvCondition where
  | any
  | absent
  | exact (token : Bytes)
deriving Repr, DecidableEq

/-- Check a condition against the current value and anchor. -/
def checkKvCondition (key : Value) (current : Option Bytes) (anchor : UInt64) :
    KvCondition → Result Unit
  | .any => .ok ()
  | .absent =>
    if current.isNone then .ok () else .error ⟨.alreadyExists, "KV entry already exists"⟩
  | .exact token => do
    if current.isSome ∧ token = (← kvExactTokenFor env key anchor) then .ok ()
    else .error ⟨.conflict, "KV exact condition did not match"⟩

/-- Check a condition on a key, and go on below the prolly root of the collection, or with its whole
map. -/
def dispatchConditioned (key : Value) (condition : KvCondition)
    (prolly : KvProllyRoot D → Call hash α) (whole : KvMap → Call hash α) : Call hash α := do
  let c ← get
  match ← readProllyRoot c with
  | some root =>
    let current ← kvGet env c key
    let anchor ← kvAnchorFromRoot c root key
    checkKvCondition env key current anchor condition
    prolly root
  | none =>
    let map ← loadOrEmpty env c
    checkKvCondition env key (map.get key) (map.anchor key) condition
    whole map

def kvPutConditioned (key : Value) (value : Bytes) (condition : KvCondition) : Call hash Unit :=
  dispatchConditioned env key condition (fun root => kvPutProlly env root key value)
    fun map => stagePut env map key value

/-- Remove a key under a condition; the result is whether it was present. -/
def kvDeleteConditioned (key : Value) (condition : KvCondition) : Call hash Bool :=
  dispatchConditioned env key condition (fun root => kvDeleteProlly env root key)
    fun map => stageDelete env map key

/-- The keys that have an anchor, and those of the new entries. -/
def replacedKeys (anchors : KeyMap UInt64) (entries : KeyMap Bytes) : KeyMap Unit :=
  entries.entries.foldl (fun m e => m.insert e.1 ())
    (anchors.entries.foldl (fun m e => m.insert e.1 ()) KeyMap.empty)

/-- Replace the whole map. Every anchor advances. -/
def replaceKvMap (entries : KeyMap Bytes) : Call hash Unit := do
  let current ← loadOrEmpty env (← get)
  let map ← ((replacedKeys current.anchors entries).entries.foldlM
    (fun m e => m.advanceAnchor e.1) ⟨current.anchors, entries⟩ : Result KvMap)
  stageKv env map

end UldrenLoom.Kv
