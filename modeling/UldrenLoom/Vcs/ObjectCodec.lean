import UldrenLoom.Lib.Utf8
import UldrenLoom.Vcs.StateCodec

/-!
# The byte form of objects

An object is the canonical array of the schema epoch, its type and its fields.

* **`object_codec`**: an object has bytes, which are read back as the object, and bytes that are read
  are those of the object they are read as.
-/

namespace UldrenLoom.Codec

open ByteString Fallible List

variable {ps : List (Value × Value)}

theorem encode_of_mem_array {vs : List Value} {b : Bytes} (h : encode (.array vs) = .ok b) :
    ∀ v ∈ vs, ∃ b, encode v = .ok b := by
  obtain ⟨body, hb, -⟩ := of_bind h
  clear h
  induction vs generalizing body with
  | nil => simp
  | cons v vs ih =>
    obtain ⟨c, hc, h⟩ := of_bind hb
    obtain ⟨cs, hcs, -⟩ := of_bind h
    exact forall_mem_cons.mpr ⟨⟨c, hc⟩, ih cs hcs⟩

theorem encodePairs_keys {bs : List (Bytes × Bytes)} (h : encodePairs ps = .ok bs) :
    bs.map Prod.fst = ps.map fun p => keyBytes p.1 := by
  induction ps generalizing bs with
  | nil =>
    cases h
    rfl
  | cons p ps ih =>
    obtain ⟨kb, hk, h⟩ := of_bind h
    obtain ⟨vb, hv, h⟩ := of_bind h
    obtain ⟨cs, hcs, h⟩ := of_bind h
    cases h
    rw [map_cons, map_cons, ih hcs, keyBytes_of_encode hk]

theorem nodup_of_encode_map {b : Bytes} (h : encode (.map ps) = .ok b) :
    (ps.map fun p => keyBytes p.1).Nodup := by
  obtain ⟨bs, hbs, h⟩ := of_bind h
  have hd : hasDuplicateKey (sortPairs bs) = false := by
    by_contra hd
    rw [Bool.not_eq_false] at hd
    simp only [hd, if_true] at h
    cases h
  have hlt := pairwise_lt_of_sorted
    (pairwise_insertionSort (fun a b : Bytes × Bytes => a.1 ≤ b.1) bs) hd
  have hn : ((sortPairs bs).map Prod.fst).Nodup := pairwise_map.mpr (hlt.imp fun h => h.ne)
  rw [← encodePairs_keys hbs]
  exact ((perm_insertionSort _ bs).map Prod.fst).nodup_iff.mp hn

theorem insertionSort_of_perm {qs : List (Value × Value)}
    (hn : (ps.map fun p => keyBytes p.1).Nodup)
    (hsorted : ps.insertionSort (fun a b => keyBytes a.1 ≤ keyBytes b.1) = ps) (h : qs.Perm ps) :
    qs.insertionSort (fun a b => keyBytes a.1 ≤ keyBytes b.1) = ps := by
  have hp : (qs.insertionSort fun a b => keyBytes a.1 ≤ keyBytes b.1).Perm ps :=
    (perm_insertionSort _ qs).trans h
  have hps : ps.Pairwise fun a b => keyBytes a.1 ≤ keyBytes b.1 := by
    rw [← hsorted]
    exact pairwise_insertionSort _ ps
  refine hp.eq_of_pairwise (fun a b ha hb hab hba => ?_) (pairwise_insertionSort _ qs) hps
  exact inj_on_of_nodup_map hn (hp.mem_iff.mp ha) hb (le_antisymm hab hba)

end UldrenLoom.Codec

namespace UldrenLoom.Cbor.Fields

open Codec

variable {α β : Type} {vs vs' : List Value}

theorem bind_eq_ok {x : Fields α} {f : α → Fields β} {vs : List Value} {r : β × List Value} :
    (x >>= f) vs = .ok r ↔ ∃ a vs', x vs = .ok (a, vs') ∧ f a vs' = .ok r := by
  change (x vs >>= fun p => f p.1 p.2) = .ok r ↔ _
  rw [Fallible.bind_eq_ok]
  exact ⟨fun ⟨p, hp, hf⟩ => ⟨p.1, p.2, hp, hf⟩, fun ⟨a, vs', hx, hf⟩ => ⟨(a, vs'), hx, hf⟩⟩

variable {a : α}

theorem pure_eq_ok {r : α × List Value} : (pure a : Fields α) vs = .ok r ↔ r = (a, vs) := by
  change Except.ok (a, vs) = .ok r ↔ _
  rw [Except.ok.injEq, eq_comm]

theorem next_eq_ok {f : Value → Result α} :
    next f vs = .ok (a, vs') ↔ ∃ v, vs = v :: vs' ∧ f v = .ok a := by
  cases vs with
  | nil => exact ⟨fun h => (by cases h), fun ⟨_, h, _⟩ => (by cases h)⟩
  | cons v vs =>
    change (f v >>= fun a => Except.ok (a, vs)) = .ok (a, vs') ↔ _
    rw [Fallible.bind_eq_ok]
    constructor
    · rintro ⟨b, hb, h⟩
      cases h
      exact ⟨v, rfl, hb⟩
    · rintro ⟨w, hw, ha⟩
      cases hw
      exact ⟨a, ha, rfl⟩

theorem lift_eq_ok {x : Result α} :
    (liftM x : Fields α) vs = .ok (a, vs') ↔ x = .ok a ∧ vs' = vs := by
  cases x with
  | error e => exact ⟨fun h => (by cases h), fun ⟨h, _⟩ => (by cases h)⟩
  | ok b =>
    change Except.ok (b, vs) = .ok (a, vs') ↔ _
    rw [Except.ok.injEq, Except.ok.injEq, Prod.mk.injEq, eq_comm (a := vs)]

theorem end_eq_ok {u : Unit} : Fields.end vs = .ok (u, vs') ↔ vs = [] ∧ vs' = [] := by
  cases vs with
  | nil =>
    change Except.ok ((), []) = .ok (u, vs') ↔ _
    simp [eq_comm]
  | cons v vs => exact ⟨fun h => (by cases h), fun ⟨h, _⟩ => (by cases h)⟩

end UldrenLoom.Cbor.Fields

namespace UldrenLoom.Cbor

open Codec

variable {v : Value}

theorem asUint_eq_ok {n : UInt64} : asUint v = .ok n ↔ v = .uint n := by
  cases v <;> simp [asUint]

theorem asBytes_eq_ok {b : ByteString.Bytes} : asBytes v = .ok b ↔ v = .bytes b := by
  cases v <;> simp [asBytes]

theorem asText_eq_ok {s : String} : asText v = .ok s ↔ v = .text s := by
  cases v <;> simp [asText]

theorem asArray_eq_ok {vs : List Value} : asArray v = .ok vs ↔ v = .array vs := by
  cases v <;> simp [asArray]

theorem asMap_eq_ok {ps : List (Value × Value)} : asMap v = .ok ps ↔ v = .map ps := by
  cases v <;> simp [asMap]

end UldrenLoom.Cbor

namespace UldrenLoom.Vcs

open ByteString Fallible Codec Cbor

/-! ## Tags -/

def ObjectType.toU8 : ObjectType → UInt8
  | .blob => 0x01
  | .chunkList => 0x02
  | .tree => 0x03
  | .commit => 0x04
  | .tag => 0x05

def ObjectType.fromU8 (b : UInt8) : Result ObjectType :=
  match b with
  | 0x01 => .ok .blob
  | 0x02 => .ok .chunkList
  | 0x03 => .ok .tree
  | 0x04 => .ok .commit
  | 0x05 => .ok .tag
  | _ => .error (.corrupt ("unknown object type " ++ hexByte b))

def EntryKind.toU8 : EntryKind → UInt8
  | .tree => 0x01
  | .blob => 0x02
  | .symlink => 0x03
  | .subloom => 0x04
  | .treeShard => 0x05
  | .table => 0x06
  | .prollyMap => 0x07
  | .stream => 0x08
  | .timeSeries => 0x09
  | .graph => 0x0a
  | .ledger => 0x0b
  | .columnar => 0x0c
  | .document => 0x0d

def EntryKind.fromU8 (b : UInt8) : Result EntryKind :=
  match b with
  | 0x01 => .ok .tree
  | 0x02 => .ok .blob
  | 0x03 => .ok .symlink
  | 0x04 => .ok .subloom
  | 0x05 => .ok .treeShard
  | 0x06 => .ok .table
  | 0x07 => .ok .prollyMap
  | 0x08 => .ok .stream
  | 0x09 => .ok .timeSeries
  | 0x0a => .ok .graph
  | 0x0b => .ok .ledger
  | 0x0c => .ok .columnar
  | 0x0d => .ok .document
  | _ => .error (.corrupt ("unknown tree-entry kind " ++ hexByte b))

variable {b : UInt8}

theorem ObjectType.fromU8_eq_ok {ty : ObjectType} : fromU8 b = .ok ty ↔ b = ty.toU8 := by
  constructor
  · unfold fromU8
    intro h
    split at h <;> cases h <;> rfl
  · rintro rfl
    cases ty <;> rfl

theorem EntryKind.fromU8_eq_ok {kind : EntryKind} : fromU8 b = .ok kind ↔ b = kind.toU8 := by
  constructor
  · unfold fromU8
    intro h
    split at h <;> cases h <;> rfl
  · rintro rfl
    cases kind <;> rfl

/-! ## Fields -/

def u8From (n : UInt64) : Result UInt8 :=
  if n.toNat < 2 ^ 8 then .ok n.toUInt8 else .error (.corrupt "value out of u8 range")

def modeFrom (n : UInt64) : Result UInt32 :=
  if n.toNat < 2 ^ 32 then .ok n.toUInt32 else .error (.corrupt "tree entry mode out of range")

def digestField (v : Value) : Result Digest :=
  letI := Digest.code .blake3
  asDigest v

theorem u8From_eq_ok {n : UInt64} : u8From n = .ok b ↔ n = b.toUInt64 := by
  unfold u8From
  split_ifs with h
  · rw [Except.ok.injEq, ← UInt64.toNat_inj, ← UInt8.toNat_inj]
    simp only [UInt64.toNat_toUInt8, UInt8.toNat_toUInt64]
    omega
  · refine ⟨fun hn => (nomatch hn), fun hn => absurd ?_ h⟩
    rw [hn, UInt8.toNat_toUInt64]
    exact b.toNat_lt

theorem modeFrom_eq_ok {n : UInt64} {mode : UInt32} : modeFrom n = .ok mode ↔ n = mode.toUInt64 := by
  unfold modeFrom
  split_ifs with h
  · rw [Except.ok.injEq, ← UInt64.toNat_inj, ← UInt32.toNat_inj]
    simp only [UInt64.toNat_toUInt32, UInt32.toNat_toUInt64]
    omega
  · refine ⟨fun hn => (nomatch hn), fun hn => absurd ?_ h⟩
    rw [hn, UInt32.toNat_toUInt64]
    exact mode.toNat_lt

variable {v : Value}

theorem digestField_eq_ok {d : Digest} : digestField v = .ok d ↔ v = .bytes d.bytes := by
  constructor
  · intro h
    obtain ⟨b, hb, h⟩ := of_bind h
    dsimp only [DigestCode.ofBytes] at h
    split_ifs at h with hl
    cases h
    exact asBytes_eq_ok.mp hb
  · rintro rfl
    let := Digest.code .blake3
    exact asDigest_bytes d

def ofFields {α : Type} (read : Fields α) (item : Value) : Result α := do
  let (a, _) ← read (← asArray item)
  return a

theorem ofFields_eq_ok {α : Type} {read : Fields α} {item : Value} {a : α} :
    ofFields read item = .ok a ↔ ∃ vs vs', item = .array vs ∧ read vs = .ok (a, vs') := by
  rw [ofFields, bind_eq_ok]
  simp only [asArray_eq_ok, bind_eq_ok]
  constructor
  · rintro ⟨vs, rfl, ⟨b, vs'⟩, hb, h⟩
    cases h
    exact ⟨vs, vs', rfl, hb⟩
  · rintro ⟨vs, vs', rfl, h⟩
    exact ⟨vs, rfl, (a, vs'), h, rfl⟩

def readItems {α β : Type} (read : β → Result α) (items : List β) :
    Result (List α) := items.mapM read

theorem readItems_eq_ok {α β : Type} {read : β → Result α} {value : α → β}
    (h : ∀ v a, read v = .ok a ↔ v = value a) {vs : List β} {as : List α} :
    readItems read vs = .ok as ↔ vs = as.map value := by
  simp only [readItems, mapM_eq_ok, h]
  rw [← List.forall₂_map_right_iff (R := (· = ·)), List.forall₂_eq_eq_eq]

/-! ## Chunks and tree entries -/

def ChunkRef.value (c : ChunkRef Digest) : Value := .array [.bytes c.target.bytes, .uint c.size]

def ChunkRef.fields : Fields (ChunkRef Digest) := do
  let target ← Fields.next digestField
  let size ← Fields.uint
  Fields.end
  return ⟨target, size⟩

def TreeEntry.value (e : TreeEntry Digest) : Value :=
  .array [.text (String.ofList e.name), .uint e.kind.toU8.toUInt64, .bytes e.target.bytes,
    .uint e.mode.toUInt64]

def TreeEntry.fields : Fields (TreeEntry Digest) := do
  let name ← Fields.text
  let kind ← EntryKind.fromU8 (← u8From (← Fields.uint))
  let target ← Fields.next digestField
  let mode ← modeFrom (← Fields.uint)
  Fields.end
  return ⟨name.toList, kind, target, mode⟩

/-- The entries of a tree, each after the one before it (`prev`). -/
def readEntries : Option Path → List Value → Result (List (TreeEntry Digest))
  | _, [] => .ok []
  | prev, item :: items => do
    let e ← ofFields TreeEntry.fields item
    if prev.any fun p => decide (e.name.bytes ≤ p.bytes) then
      .error (.corrupt "tree entries not in canonical ascending order")
    else do
      let es ← readEntries (some e.name) items
      return e :: es

theorem ChunkRef.fields_eq_ok {c : ChunkRef Digest} :
    ofFields ChunkRef.fields v = .ok c ↔ v = c.value := by
  rw [ofFields_eq_ok]
  simp only [ChunkRef.fields, Fields.uint, Fields.bind_eq_ok, Fields.next_eq_ok, Fields.end_eq_ok,
    Fields.pure_eq_ok, digestField_eq_ok, asUint_eq_ok]
  constructor
  · rintro ⟨_, _, rfl, target, _, ⟨_, rfl, rfl⟩, size, _, ⟨_, rfl, rfl⟩, _, _, ⟨rfl, rfl⟩, h⟩
    cases h
    rfl
  · rintro rfl
    exact ⟨_, _, rfl, _, _, ⟨_, rfl, rfl⟩, _, _, ⟨_, rfl, rfl⟩, (), _, ⟨rfl, rfl⟩, rfl⟩

theorem TreeEntry.fields_eq_ok {e : TreeEntry Digest} :
    ofFields TreeEntry.fields v = .ok e ↔ v = e.value := by
  rw [ofFields_eq_ok]
  simp only [TreeEntry.fields, Fields.uint, Fields.text, Fields.bind_eq_ok, Fields.next_eq_ok,
    Fields.lift_eq_ok, Fields.end_eq_ok, Fields.pure_eq_ok, digestField_eq_ok, asUint_eq_ok,
    asText_eq_ok, u8From_eq_ok, modeFrom_eq_ok, EntryKind.fromU8_eq_ok]
  constructor
  · rintro ⟨_, _, rfl, name, _, ⟨_, rfl, rfl⟩, _, _, ⟨_, rfl, rfl⟩, _, _, ⟨rfl, rfl⟩, kind, _,
      ⟨rfl, rfl⟩, target, _, ⟨_, rfl, rfl⟩, _, _, ⟨_, rfl, rfl⟩, mode, _, ⟨rfl, rfl⟩, _, _,
      ⟨rfl, rfl⟩, h⟩
    cases h
    simp only [TreeEntry.value, String.ofList_toList]
  · rintro rfl
    refine ⟨_, [], rfl, _, _, ⟨_, rfl, rfl⟩, _, _, ⟨_, rfl, rfl⟩, _, _, ⟨rfl, rfl⟩, _, _, ⟨rfl, rfl⟩,
      _, _, ⟨_, rfl, rfl⟩, _, _, ⟨_, rfl, rfl⟩, _, _, ⟨rfl, rfl⟩, (), _, ⟨rfl, rfl⟩, ?_⟩
    rw [String.toList_ofList]

theorem Path.bytes_le_iff {p q : Path} : p.bytes ≤ q.bytes ↔ p ≤ q := by
  rw [← not_lt, ← not_lt]
  exact not_congr strBytes_lt_iff

theorem readEntries_eq_ok {prev : Option Path} {vs : List Value} {es : List (TreeEntry Digest)} :
    readEntries prev vs = .ok es ↔
      vs = es.map TreeEntry.value ∧ (∀ p ∈ prev, ∀ e ∈ es, p < e.name) ∧ Object.Canonical es := by
  induction vs generalizing prev es with
  | nil =>
    rw [readEntries]
    constructor
    · intro h
      cases h
      exact ⟨rfl, by simp, List.Pairwise.nil⟩
    · rintro ⟨h, -, -⟩
      rw [List.map_eq_nil_iff.mp h.symm]
  | cons v vs ih =>
    rw [readEntries, bind_eq_ok]
    simp only [TreeEntry.fields_eq_ok]
    constructor
    · rintro ⟨e, rfl, h⟩
      split_ifs at h with hp
      obtain ⟨es', hes, h⟩ := of_bind h
      cases h
      obtain ⟨rfl, hlt, hc⟩ := ih.mp hes
      have he : ∀ e' ∈ es', e.name < e'.name := hlt e.name rfl
      refine ⟨rfl, ?_, List.pairwise_cons.mpr ⟨he, hc⟩⟩
      rintro p rfl
      have hpe : p < e.name := by
        rw [Option.any_some, decide_eq_true_eq, Path.bytes_le_iff] at hp
        exact not_le.mp hp
      exact List.forall_mem_cons.mpr ⟨hpe, fun e' he' => hpe.trans (he e' he')⟩
    · rintro ⟨hv, hlt, hc⟩
      cases es with
      | nil => cases hv
      | cons e es =>
        rw [List.map_cons, List.cons.injEq] at hv
        have hp : ¬ (prev.any fun p => decide (e.name.bytes ≤ p.bytes)) = true := by
          cases prev with
          | none => simp
          | some p =>
            rw [Option.any_some, decide_eq_true_eq, Path.bytes_le_iff]
            exact not_le.mpr (hlt p rfl e List.mem_cons_self)
        have hes : readEntries (some e.name) vs = .ok es := by
          refine ih.mpr ⟨hv.2, ?_, hc.of_cons⟩
          rintro p hp e' he'
          cases hp
          exact List.rel_of_pairwise_cons hc he'
        refine ⟨e, hv.1, ?_⟩
        rw [if_neg hp, hes]
        rfl

/-! ## Metadata -/

def metadataValue (metadata : List (Text × String)) : Value :=
  .map (metadata.map fun e => (.text e.1, .text e.2))

def readPair (p : Value × Value) : Result (Text × String) := do
  let key ← asText p.1
  let value ← asText p.2
  return (key, value)

def readMetadata (pairs : List (Value × Value)) : Result (SortedMap Text String) := do
  return SortedMap.ofList (← readItems readPair pairs)

theorem readPair_eq_ok {p : Value × Value} {e : Text × String} :
    readPair p = .ok e ↔ p = (.text e.1, .text e.2) := by
  obtain ⟨k, v⟩ := p
  simp only [readPair, bind_eq_ok, asText_eq_ok, Prod.mk.injEq]
  constructor
  · rintro ⟨key, rfl, value, rfl, h⟩
    cases h
    exact ⟨rfl, rfl⟩
  · rintro ⟨rfl, rfl⟩
    exact ⟨_, rfl, _, rfl, rfl⟩

theorem canonPairs_text (l : List (Text × String)) :
    canonPairs (l.map fun e => ((.text e.1 : Value), (.text e.2 : Value))) =
      l.map fun e => (.text e.1, .text e.2) := by
  rw [canonPairs_eq_map, List.map_map]
  rfl

theorem perm_ofList {K V : Type} [LinearOrder K] {l : List (K × V)}
    (h : l.Pairwise fun a b => a.1 ≠ b.1) : (SortedMap.ofList l).entries.Perm l := by
  have hn : l.Nodup := h.imp fun hab heq => hab (congrArg Prod.fst heq)
  refine (List.perm_ext_iff_of_nodup (SortedMap.nodup_entries _) hn).mpr fun e => ?_
  rw [← SortedMap.get_eq_some, SortedMap.get_ofList h]
  exact ⟨OrdMap.mem_of_get, OrdMap.get_of_mem h⟩

theorem readMetadata_canon (metadata : SortedMap Text String) :
    ∃ pairs, canon (metadataValue metadata.entries) = .map pairs ∧
      readMetadata pairs = .ok metadata := by
  refine ⟨_, rfl, ?_⟩
  have hread : readItems readPair (metadata.entries.map fun e => (.text e.1, .text e.2)) =
      .ok metadata.entries := (readItems_eq_ok fun p e => readPair_eq_ok).mpr rfl
  rw [canonPairs_text metadata.entries]
  obtain ⟨es, hes, hperm⟩ := mapM_of_perm (List.perm_insertionSort
    (fun a b : Value × Value => keyBytes a.1 ≤ keyBytes b.1) _) hread
  rw [readMetadata, readItems, hes, ok_bind, SortedMap.ofList_of_perm hperm]
  rfl

theorem canon_of_readMetadata {pairs : List (Value × Value)} {metadata : SortedMap Text String}
    (h : readMetadata pairs = .ok metadata) (hc : canon (.map pairs) = .map pairs)
    (hn : (pairs.map fun p => keyBytes p.1).Nodup) :
    canon (metadataValue metadata.entries) = .map pairs := by
  obtain ⟨l, hl, h⟩ := of_bind h
  cases h
  have hpairs : pairs = l.map fun e => ((.text e.1 : Value), (.text e.2 : Value)) :=
    (readItems_eq_ok fun p e => readPair_eq_ok).mp hl
  subst hpairs
  have hkeys : l.Pairwise fun a b => a.1 ≠ b.1 := by
    rw [List.map_map, List.Nodup, List.pairwise_map] at hn
    exact hn.imp fun hab heq => hab (congrArg (fun t : Text => keyBytes (.text t)) heq)
  rw [canon, canonPairs_text] at hc
  rw [metadataValue, canon, canonPairs_text, insertionSort_of_perm hn (Value.map.inj hc)
    ((perm_ofList hkeys).map _)]

theorem sized_of_canon_metadata {l : List (Text × String)} {pairs : List (Value × Value)}
    (h : canon (metadataValue l) = .map pairs) (hs : Codec.Sized (.map pairs)) :
    Codec.Sized (metadataValue l) := by
  rw [metadataValue, canon, canonPairs_text, Value.map.injEq] at h
  have hp : pairs.Perm (l.map fun e => (.text e.1, .text e.2)) := by
    rw [← h]
    exact List.perm_insertionSort _ _
  refine ⟨hp.length_eq ▸ hs.1, sizedPairs_iff.mpr fun p hmem => ?_⟩
  exact sizedPairs_iff.mp hs.2 p (hp.mem_iff.mpr hmem)

/-! ## Objects -/

namespace Object

def cborFields : Object Digest → List Value
  | .blob payload => [.bytes payload]
  | .chunkList totalSize entries => [.uint totalSize, .array (entries.map ChunkRef.value)]
  | .tree entries => [.array (entries.map TreeEntry.value)]
  | .commit c =>
    [.bytes c.tree.bytes, .array (c.parents.map fun d => .bytes d.bytes), .text c.author,
      .uint c.timestampMs, .text c.message, metadataValue c.metadata]
  | .tag t =>
    [.bytes t.target.bytes, .uint t.targetType.toU8.toUInt64, .text (String.ofList t.name),
      .text t.tagger, .uint t.timestampMs, .text t.message]

/-- The bytes of an object. -/
def canonical (o : Object Digest) : Except CodecError Bytes :=
  encodeObject o.objectType.toU8.toUInt16 o.cborFields

def fields : ObjectType → Fields (Object Digest)
  | .blob => do
    let payload ← Fields.bytes
    Fields.end
    return .blob payload
  | .chunkList => do
    let totalSize ← Fields.uint
    let entries ← readItems (ofFields ChunkRef.fields) (← Fields.array)
    Fields.end
    return .chunkList totalSize entries
  | .tree => do
    let entries ← readEntries none (← Fields.array)
    Fields.end
    return .tree entries
  | .commit => do
    let tree ← Fields.next digestField
    let parents ← readItems digestField (← Fields.array)
    let author ← Fields.text
    let timestampMs ← Fields.uint
    let message ← Fields.text
    let metadata ← readMetadata (← Fields.map)
    Fields.end
    return .commit ⟨tree, parents, author, timestampMs, message, metadata.entries⟩
  | .tag => do
    let target ← Fields.next digestField
    let targetType ← ObjectType.fromU8 (← u8From (← Fields.uint))
    let name ← Fields.text
    let tagger ← Fields.text
    let timestampMs ← Fields.uint
    let message ← Fields.text
    Fields.end
    return .tag ⟨target, targetType, name.toList, tagger, timestampMs, message⟩

def decodeBytes (bytes : Bytes) : Result (Object Digest) := do
  let (typeCode, items) ← (decodeObject bytes).mapError Cbor.err
  let ty ← ObjectType.fromU8 (← u8From typeCode.toUInt64)
  let (o, _) ← fields ty items
  return o

/-- What the constructors of the source can build. -/
def Built : Object Digest → Prop
  | .tree entries => ∃ es, makeTree es = .ok (.tree entries)
  | .commit c => ∃ metadata : SortedMap Text String, c.metadata = metadata.entries
  | _ => True

/-- How the fields of an object may stand in an array: the pairs of the metadata in any order. -/
def Reads (items : List Value) : Object Digest → Prop
  | .tree entries => items = cborFields (.tree entries) ∧ Canonical entries
  | .commit c => ∃ pairs metadata, readMetadata pairs = .ok metadata ∧
      c.metadata = metadata.entries ∧
      items = [.bytes c.tree.bytes, .array (c.parents.map fun d => .bytes d.bytes), .text c.author,
        .uint c.timestampMs, .text c.message, .map pairs]
  | o => items = cborFields o

variable {items : List Value} {o : Object Digest}

theorem fields_eq_ok {ty : ObjectType} {items rest : List Value} {o : Object Digest} :
    fields ty items = .ok (o, rest) ↔ ty = o.objectType ∧ rest = [] ∧ Reads items o := by
  have hchunks : ∀ vs cs, readItems (ofFields ChunkRef.fields) vs = .ok cs ↔ vs = cs.map _ :=
    fun _ _ => readItems_eq_ok fun _ _ => ChunkRef.fields_eq_ok
  have hdigests : ∀ vs ds, readItems digestField vs = .ok ds ↔ vs = ds.map _ :=
    fun _ _ => readItems_eq_ok fun _ _ => digestField_eq_ok
  have hentries : ∀ vs es, readEntries none vs = .ok es ↔
      vs = es.map TreeEntry.value ∧ Canonical es := fun _ _ => by simp [readEntries_eq_ok]
  cases ty
  all_goals
    simp only [fields, Fields.uint, Fields.text, Fields.bytes, Fields.array, Fields.map,
      Fields.bind_eq_ok, Fields.next_eq_ok, Fields.lift_eq_ok, Fields.end_eq_ok, Fields.pure_eq_ok,
      digestField_eq_ok, asUint_eq_ok, asText_eq_ok, asBytes_eq_ok, asArray_eq_ok, asMap_eq_ok,
      u8From_eq_ok, ObjectType.fromU8_eq_ok, hchunks, hdigests, hentries]
    constructor
  · rintro ⟨payload, _, ⟨_, rfl, rfl⟩, _, _, ⟨rfl, rfl⟩, h⟩
    cases h
    exact ⟨rfl, rfl, rfl⟩
  · rintro ⟨hty, rfl, h⟩
    cases o with
    | blob payload => exact ⟨_, _, ⟨_, h, rfl⟩, (), _, ⟨rfl, rfl⟩, rfl⟩
    | _ => cases hty
  · rintro ⟨total, _, ⟨_, rfl, rfl⟩, _, _, ⟨_, rfl, rfl⟩, entries, _, ⟨rfl, rfl⟩, _, _, ⟨rfl, rfl⟩, h⟩
    cases h
    exact ⟨rfl, rfl, rfl⟩
  · rintro ⟨hty, rfl, h⟩
    cases o with
    | chunkList total entries =>
      exact ⟨_, _, ⟨_, h, rfl⟩, _, _, ⟨_, rfl, rfl⟩, _, _, ⟨rfl, rfl⟩, (), _, ⟨rfl, rfl⟩, rfl⟩
    | _ => cases hty
  · rintro ⟨_, _, ⟨_, rfl, rfl⟩, entries, _, ⟨⟨rfl, hc⟩, rfl⟩, _, _, ⟨rfl, rfl⟩, h⟩
    cases h
    exact ⟨rfl, rfl, rfl, hc⟩
  · rintro ⟨hty, rfl, h⟩
    cases o with
    | tree entries =>
      exact ⟨_, _, ⟨_, h.1, rfl⟩, _, _, ⟨⟨rfl, h.2⟩, rfl⟩, (), _, ⟨rfl, rfl⟩, rfl⟩
    | _ => cases hty
  · rintro ⟨tree, _, ⟨_, rfl, rfl⟩, _, _, ⟨_, rfl, rfl⟩, parents, _, ⟨rfl, rfl⟩, author, _,
      ⟨_, rfl, rfl⟩, ts, _, ⟨_, rfl, rfl⟩, message, _, ⟨_, rfl, rfl⟩, pairs, _, ⟨_, rfl, rfl⟩,
      metadata, _, ⟨hm, rfl⟩, _, _, ⟨rfl, rfl⟩, h⟩
    cases h
    exact ⟨rfl, rfl, pairs, metadata, hm, rfl, rfl⟩
  · rintro ⟨hty, rfl, h⟩
    cases o with
    | commit c =>
      obtain ⟨pairs, metadata, hm, hc, h⟩ := h
      refine ⟨_, _, ⟨_, h, rfl⟩, _, _, ⟨_, rfl, rfl⟩, _, _, ⟨rfl, rfl⟩, _, _, ⟨_, rfl, rfl⟩, _, _,
        ⟨_, rfl, rfl⟩, _, _, ⟨_, rfl, rfl⟩, _, _, ⟨_, rfl, rfl⟩, metadata, _, ⟨hm, rfl⟩, (), _,
        ⟨rfl, rfl⟩, ?_⟩
      rw [← hc]
    | _ => cases hty
  · rintro ⟨target, _, ⟨_, rfl, rfl⟩, _, _, ⟨_, rfl, rfl⟩, _, _, ⟨rfl, rfl⟩, ty, _, ⟨rfl, rfl⟩, name, _,
      ⟨_, rfl, rfl⟩, tagger, _, ⟨_, rfl, rfl⟩, ts, _, ⟨_, rfl, rfl⟩, message, _, ⟨_, rfl, rfl⟩, _, _,
      ⟨rfl, rfl⟩, h⟩
    cases h
    refine ⟨rfl, rfl, ?_⟩
    simp only [Reads, cborFields, String.ofList_toList]
  · rintro ⟨hty, rfl, h⟩
    cases o with
    | tag t =>
      refine ⟨_, _, ⟨_, h, rfl⟩, _, _, ⟨_, rfl, rfl⟩, _, _, ⟨rfl, rfl⟩, _, _, ⟨rfl, rfl⟩, _, _,
        ⟨_, rfl, rfl⟩, _, _, ⟨_, rfl, rfl⟩, _, _, ⟨_, rfl, rfl⟩, _, _, ⟨_, rfl, rfl⟩, (), _, ⟨rfl, rfl⟩,
        ?_⟩
      rw [String.toList_ofList]
    | _ => cases hty

/-! ## Round trips -/

/-- Every length fits a `u64`. -/
def Sized (o : Object Digest) : Prop := SizedItems o.cborFields

theorem canonItems_leaves {α : Type} {f : α → Value} (h : ∀ a, canon (f a) = f a) (as : List α) :
    canonItems (as.map f) = as.map f := by
  rw [canonItems_eq_map, List.map_map]
  exact List.map_congr_left fun a _ => h a

theorem reads_canonItems (hb : o.Built) : Reads (canonItems o.cborFields) o := by
  cases o with
  | blob payload => rfl
  | chunkList total entries =>
    have h := canonItems_leaves (f := ChunkRef.value) (fun _ => rfl) entries
    simp only [Reads, cborFields, canonItems, canon, h]
  | tree entries =>
    obtain ⟨es, hes⟩ := hb
    obtain ⟨hn, h⟩ := makeTree_ok_iff.mp hes
    cases h
    have h := canonItems_leaves (f := TreeEntry.value) (fun _ => rfl) (sortEntries es)
    refine ⟨?_, canonical_sortEntries.mpr hn⟩
    simp only [cborFields, canonItems, canon, h]
  | commit c =>
    obtain ⟨tree, parents, author, ts, message, md⟩ := c
    obtain ⟨metadata, hm⟩ := hb
    cases hm
    obtain ⟨pairs, hc, hread⟩ := readMetadata_canon metadata
    have h := canonItems_leaves (f := fun d : Digest => .bytes d.bytes) (fun _ => rfl) parents
    refine ⟨pairs, metadata, hread, rfl, ?_⟩
    simp only [cborFields, canonItems, hc]
    simp only [canon, h]
  | tag t => rfl

theorem canonItems_of_reads (h : Reads items o) (hc : canonItems items = items)
    (he : ∀ v ∈ items, ∃ b, Codec.encode v = .ok b) (hs : SizedItems items) :
    o.Built ∧ o.Sized ∧ canonItems o.cborFields = items := by
  cases o with
  | blob payload =>
    cases h
    exact ⟨trivial, hs, hc⟩
  | chunkList total entries =>
    cases h
    exact ⟨trivial, hs, hc⟩
  | tree entries =>
    obtain ⟨rfl, hcan⟩ := h
    exact ⟨⟨entries, makeTree_of_canonical hcan⟩, hs, hc⟩
  | commit c =>
    obtain ⟨tree, parents, author, ts, message, md⟩ := c
    obtain ⟨pairs, metadata, hread, hm, rfl⟩ := h
    cases hm
    obtain ⟨b, hb⟩ := he (.map pairs) (by simp)
    simp only [canonItems, List.cons.injEq, and_true] at hc
    obtain ⟨htree, hparents, hauthor, hts, hmessage, hmap⟩ := hc
    have hmeta := canon_of_readMetadata hread hmap (nodup_of_encode_map hb)
    obtain ⟨stree, sparents, sauthor, sts, smessage, smap, -⟩ := hs
    refine ⟨⟨metadata, rfl⟩, ⟨stree, sparents, sauthor, sts, smessage,
      sized_of_canon_metadata hmeta smap, trivial⟩, ?_⟩
    simp only [cborFields, canonItems]
    rw [hmeta, hparents]
    rfl
  | tag t =>
    cases h
    exact ⟨trivial, hs, hc⟩

theorem encode_fields (hb : o.Built) (hs : o.Sized) :
    ∀ v ∈ o.cborFields, ∃ b, Codec.encode v = .ok b := by
  have hleaves : ∀ {α : Type} (f : α → Value) (as : List α), (∀ a, ∃ b, Codec.encode (f a) = .ok b) →
      ∃ b, Codec.encode (.array (as.map f)) = .ok b := by
    intro α f as hf
    refine encode_array_ok fun v hv => ?_
    obtain ⟨a, -, rfl⟩ := List.mem_map.mp hv
    exact hf a
  intro v hv
  cases o with
  | blob payload => exact List.mem_singleton.mp hv ▸ ⟨_, rfl⟩
  | chunkList total entries =>
    simp only [cborFields, List.mem_cons, List.not_mem_nil, or_false] at hv
    obtain rfl | rfl := hv
    · exact ⟨_, rfl⟩
    · exact hleaves _ entries fun c => ⟨_, rfl⟩
  | tree entries =>
    rw [cborFields, List.mem_singleton] at hv
    exact hv ▸ hleaves _ entries fun e => ⟨_, rfl⟩
  | commit c =>
    obtain ⟨tree, parents, author, ts, message, md⟩ := c
    obtain ⟨metadata, hm⟩ := hb
    cases hm
    simp only [cborFields, List.mem_cons, List.not_mem_nil, or_false] at hv
    obtain rfl | rfl | rfl | rfl | rfl | rfl := hv
    · exact ⟨_, rfl⟩
    · exact hleaves _ parents fun d => ⟨_, rfl⟩
    · exact ⟨_, rfl⟩
    · exact ⟨_, rfl⟩
    · exact ⟨_, rfl⟩
    · have hsized : Codec.Sized (metadataValue metadata.entries) :=
        sizedItems_iff.mp hs _ (by simp [cborFields])
      refine encode_map_ok (fun p hp => ?_) ?_
      · obtain ⟨e, -, rfl⟩ := List.mem_map.mp hp
        exact ⟨⟨_, rfl⟩, _, rfl⟩
      · have hpairs := sizedPairs_iff.mp hsized.2
        rw [List.map_map, List.nodup_iff_pairwise_ne, List.pairwise_map]
        refine metadata.ascending.imp_of_mem fun {a b} ha hb hab he => hab.ne ?_
        exact keyBytes_text_inj (hpairs _ (List.mem_map_of_mem ha)).1
          (hpairs _ (List.mem_map_of_mem hb)).1 he
  | tag t =>
    simp only [cborFields, List.mem_cons, List.not_mem_nil, or_false] at hv
    obtain rfl | rfl | rfl | rfl | rfl | rfl := hv <;> exact ⟨_, rfl⟩

theorem depthItems_map_le {α : Type} {f : α → Value} {n : ℕ} (h : ∀ a, depth (f a) ≤ n)
    (as : List α) : depthItems (as.map f) ≤ n + 1 := by
  refine depthItems_le fun v hv => ?_
  obtain ⟨a, -, rfl⟩ := List.mem_map.mp hv
  exact Nat.succ_le_succ (h a)

theorem depth_fields (o : Object Digest) : depthItems o.cborFields ≤ 3 := by
  refine depthItems_le fun v hv => Nat.succ_le_succ ?_
  cases o <;> simp only [cborFields, List.mem_cons, List.not_mem_nil, or_false] at hv
  case blob payload => exact hv ▸ Nat.zero_le _
  case chunkList total entries =>
    obtain rfl | rfl := hv
    · exact Nat.zero_le _
    · exact depthItems_map_le (f := ChunkRef.value) (fun _ => le_rfl) entries
  case tree entries => exact hv ▸ depthItems_map_le (f := TreeEntry.value) (fun _ => le_rfl) entries
  case commit c =>
    obtain rfl | rfl | rfl | rfl | rfl | rfl := hv
    · exact Nat.zero_le _
    · exact depthItems_map_le (fun _ => Nat.zero_le 1) c.parents
    · exact Nat.zero_le _
    · exact Nat.zero_le _
    · exact Nat.zero_le _
    · refine depthPairs_le fun p hp => ?_
      obtain ⟨e, -, rfl⟩ := List.mem_map.mp hp
      exact ⟨Nat.le_succ 1, Nat.le_succ 1⟩
  case tag t => obtain rfl | rfl | rfl | rfl | rfl | rfl := hv <;> exact Nat.zero_le _

def value (o : Object Digest) : Value :=
  .array (.uint (UInt64.ofNat epoch) :: .uint (UInt64.ofNat o.objectType.toU8.toUInt16.toNat) ::
    o.cborFields)

theorem sized_value (hs : o.Sized) : Codec.Sized o.value := by
  refine ⟨?_, trivial, trivial, hs⟩
  have hlen : o.cborFields.length ≤ 6 := by cases o <;> simp [cborFields]
  simp only [List.length_cons]
  omega

theorem depth_value (o : Object Digest) : depth o.value ≤ maxDepth := by
  have h := depth_fields o
  simp only [value, depth, depthItems, maxDepth]
  omega

theorem canon_value (o : Object Digest) : canon o.value = .array (.uint (UInt64.ofNat epoch) ::
      .uint (UInt64.ofNat o.objectType.toU8.toUInt16.toNat) :: canonItems o.cborFields) := rfl

theorem objectParts_eq_ok {v : Value} {ty : UInt16} : objectParts v = .ok (ty, items) ↔
      v = .array (.uint (UInt64.ofNat epoch) :: .uint (UInt64.ofNat ty.toNat) :: items) := by
  constructor
  · unfold objectParts
    intro h
    split at h
    · rename_i e t fs
      split_ifs at h with he
      split at h
      · rename_i n
        split_ifs at h with hn
        cases h
        have hty : UInt64.ofNat (UInt16.ofNat n.toNat).toNat = n := by
          rw [UInt16.toNat_ofNat_of_lt' (Nat.lt_succ_of_le hn), UInt64.ofNat_toNat]
        rw [hty, ← not_not.mp he, UInt64.ofNat_toNat]
      · cases h
    · cases h
  · rintro rfl
    have ht : (UInt64.ofNat ty.toNat).toNat = ty.toNat :=
      UInt64.toNat_ofNat_of_lt' (ty.toNat_lt.trans (by decide))
    rw [objectParts, if_neg (by decide)]
    simp only [ht]
    rw [if_pos (Nat.le_of_lt_succ ty.toNat_lt), UInt16.ofNat_toNat]

theorem decodeBytes_eq_ok {b : Bytes} :
    decodeBytes b = .ok o ↔ ∃ items, Codec.decode b = .ok (.array (.uint (UInt64.ofNat epoch) ::
      .uint (UInt64.ofNat o.objectType.toU8.toUInt16.toNat) :: items)) ∧ Reads items o := by
  have hcode : ∀ (code : UInt16) (ty : ObjectType),
      code.toUInt64 = ty.toU8.toUInt64 ↔ code = ty.toU8.toUInt16 := by
    intro code ty
    rw [← UInt64.toNat_inj, ← UInt16.toNat_inj]
    simp only [UInt16.toNat_toUInt64, UInt8.toNat_toUInt64, UInt8.toNat_toUInt16]
  constructor
  · intro h
    obtain ⟨⟨code, items⟩, hd, h⟩ := of_bind h
    obtain ⟨n, hn, h⟩ := of_bind h
    obtain ⟨ty, hty, h⟩ := of_bind h
    obtain ⟨⟨o', rest⟩, ho, h⟩ := of_bind h
    cases h
    obtain ⟨rfl, -, hr⟩ := fields_eq_ok.mp ho
    rw [ObjectType.fromU8_eq_ok.mp hty] at hn
    have hparts : decodeObject b = .ok (code, items) := mapError_eq_ok.mp hd
    obtain ⟨v, hv, hp⟩ := of_bind hparts
    rw [objectParts_eq_ok.mp hp, (hcode _ _).mp (u8From_eq_ok.mp hn)] at hv
    exact ⟨items, hv, hr⟩
  · rintro ⟨items, hv, hr⟩
    have hparts : decodeObject b = .ok (o.objectType.toU8.toUInt16, items) := by
      rw [decodeObject, hv, ok_bind, objectParts_eq_ok.mpr rfl]
    rw [decodeBytes, mapError_eq_ok.mpr hparts, ok_bind]
    dsimp only
    rw [u8From_eq_ok.mpr ((hcode _ _).mpr rfl), ok_bind, ObjectType.fromU8_eq_ok.mpr rfl, ok_bind,
      fields_eq_ok.mpr ⟨rfl, rfl, hr⟩]
    rfl

/-- The object address: the hash of its canonical bytes. -/
def digestWith (hash : Bytes → Digest) (o : Object Digest) : Except CodecError Digest :=
  hash <$> o.canonical

theorem encode_value (hb : o.Built) (hs : o.Sized) :
    ∃ b, Codec.encode o.value = .ok b ∧ Codec.decode b = .ok (canon o.value) := by
  obtain ⟨b, henc⟩ : ∃ b, Codec.encode o.value = .ok b := encode_array_ok
    (List.forall_mem_cons.mpr ⟨⟨_, rfl⟩, List.forall_mem_cons.mpr ⟨⟨_, rfl⟩, encode_fields hb hs⟩⟩)
  exact ⟨b, henc, decode_of_encode (sized_value hs) (depth_value o) henc⟩

theorem decodeBytes_canonical (hb : o.Built) (hs : o.Sized) :
    ∃ b, o.canonical = .ok b ∧ decodeBytes b = .ok o := by
  obtain ⟨b, henc, hdec⟩ := encode_value hb hs
  rw [canon_value] at hdec
  exact ⟨b, henc, decodeBytes_eq_ok.mpr ⟨_, hdec, reads_canonItems hb⟩⟩

theorem canonical_decodeBytes {b : Bytes} (h : decodeBytes b = .ok o) : o.canonical = .ok b := by
  obtain ⟨items, hdec, hr⟩ := decodeBytes_eq_ok.mp h
  obtain ⟨henc, hs, hd⟩ := encode_of_decode hdec
  have hfix := Except.ok.inj (hdec.symm.trans (decode_of_encode hs hd henc))
  simp only [canon, canonItems, Value.array.injEq, List.cons.injEq, true_and] at hfix
  have hitems : ∀ v ∈ items, ∃ b, Codec.encode v = .ok b := fun v hv =>
    encode_of_mem_array henc v (List.mem_cons_of_mem _ (List.mem_cons_of_mem _ hv))
  obtain ⟨hb, hso, hcanon⟩ := canonItems_of_reads hr hfix.symm hitems hs.2.2.2
  -- the object's own array has the canonical form that was read
  obtain ⟨b', henc', hdec'⟩ := encode_value hb hso
  rw [canon_value, hcanon] at hdec'
  have hbytes : b' = b := Except.ok.inj ((encode_of_decode hdec').1.symm.trans henc)
  exact hbytes ▸ henc'

/-- **The byte form of objects**: they are read back from their bytes, whose hash is their
digest. -/
theorem object_codec (hash : Bytes → Digest) :
    (∀ o : Object Digest, o.Built → o.Sized → ∃ b, o.canonical = .ok b ∧ decodeBytes b = .ok o) ∧
      ∀ (b : Bytes) (o : Object Digest), decodeBytes b = .ok o →
        o.canonical = .ok b ∧ o.digestWith hash = .ok (hash b) := by
  refine ⟨fun o => decodeBytes_canonical, fun b o h => ?_⟩
  have hb := canonical_decodeBytes h
  refine ⟨hb, ?_⟩
  rw [digestWith, hb]
  rfl

namespace Sample

def entries : List (TreeEntry Digest) :=
  [⟨['b'], .blob, ⟨List.replicate 32 1, rfl⟩, 0o644⟩, ⟨['a'], .symlink, ⟨List.replicate 32 2, rfl⟩, 0⟩]

theorem tree_codec : ∃ o b, makeTree entries = .ok o ∧ o.canonical = .ok b ∧ decodeBytes b = .ok o := by
  have hmake : makeTree entries = .ok (.tree entries.reverse) := by decide +kernel
  have hsized : (Object.tree entries.reverse).Sized := by
    have hentry : ∀ e ∈ entries.reverse, (strBytes (String.ofList e.name)).length < 2 ^ 64 := by
      decide +kernel
    refine ⟨⟨by decide, sizedItems_iff.mpr fun v hv => ?_⟩, trivial⟩
    obtain ⟨e, he, rfl⟩ := List.mem_map.mp hv
    have hd : e.target.bytes.length < 2 ^ 64 := by
      rw [e.target.length_bytes]
      decide
    have hfields : 4 < 2 ^ 64 := by decide
    exact ⟨hfields, hentry e he, trivial, hd, trivial, trivial⟩
  obtain ⟨b, hb, hd⟩ := (object_codec fun _ => ⟨List.replicate 32 0, rfl⟩).1 (.tree entries.reverse) ⟨_, hmake⟩ hsized
  exact ⟨_, b, hmake, hb, hd⟩

end Sample

end Object

end UldrenLoom.Vcs
