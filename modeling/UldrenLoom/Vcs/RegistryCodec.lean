import UldrenLoom.Codec.RoundTrip
import UldrenLoom.Vcs.Digest
import UldrenLoom.Vcs.Registry

/-!
# The bytes of the registry

* **`decode_encode_registry`**: the registry is read back, with an exact index.
-/

namespace UldrenLoom.Vcs

open ByteString Fallible Cbor List SortedMap Fields
open Codec (Value)

def FacetKind.asStr : FacetKind → String
  | .files => "files"
  | .vcs => "vcs"
  | .sql => "sql"
  | .kv => "kv"
  | .document => "document"
  | .vector => "vector"
  | .graph => "graph"
  | .columnar => "columnar"
  | .queue => "queue"
  | .timeSeries => "time-series"
  | .cas => "cas"
  | .ledger => "ledger"
  | .program => "program"
  | .calendar => "calendar"
  | .contacts => "contacts"
  | .mail => "mail"
  | .search => "search"
  | .dataframe => "dataframe"
  | .metrics => "metrics"
  | .logs => "logs"
  | .traces => "traces"
  | .inference => "inference"

def FacetKind.parse (value : String) : Result FacetKind :=
  match value with
  | "files" => .ok .files
  | "vcs" => .ok .vcs
  | "sql" => .ok .sql
  | "kv" => .ok .kv
  | "document" => .ok .document
  | "vector" => .ok .vector
  | "graph" => .ok .graph
  | "columnar" => .ok .columnar
  | "queue" => .ok .queue
  | "time-series" => .ok .timeSeries
  | "cas" => .ok .cas
  | "ledger" => .ok .ledger
  | "program" => .ok .program
  | "calendar" => .ok .calendar
  | "contacts" => .ok .contacts
  | "mail" => .ok .mail
  | "search" => .ok .search
  | "dataframe" => .ok .dataframe
  | "metrics" => .ok .metrics
  | "logs" => .ok .logs
  | "traces" => .ok .traces
  | "inference" => .ok .inference
  | other => .error (.invalid ("unknown workspace facet " ++ Path.quote other.toList))

theorem FacetKind.parse_asStr (f : FacetKind) : parse f.asStr = .ok f := by
  cases f <;> rfl

variable {D : Type} [DigestCode D]

def asDigest (v : Value) : Result D := do
  match DigestCode.ofBytes (← asBytes v) with
  | some d => .ok d
  | none => .error (.corrupt "digest field is not 32 bytes")

theorem asDigest_bytes (d : D) : asDigest (.bytes (DigestCode.bytes d)) = .ok d := by
  rw [asDigest, asBytes, ok_bind, DigestCode.ofBytes_bytes]

namespace Registry

def refsMap (refs : SortedMap Path D) : Value :=
  .map (refs.entries.map fun e => (.text (String.ofList e.1), .bytes (DigestCode.bytes e.2)))

def refsFromMap (pairs : List (Value × Value)) : Result (SortedMap Path D) := do
  let entries ← pairs.mapM fun p => do
    let name ← asText p.1
    let d ← asDigest p.2
    return (name.toList, d)
  return SortedMap.ofList entries

def facetsFromArray (items : List Value) : Result (SortedSet FacetKind) := do
  return SortedSet.ofList (← items.mapM fun item => do FacetKind.parse (← asText item))

def idBytes (raw : Bytes) : Result WorkspaceId :=
  if h : raw.length = 16 then .ok ⟨raw, h⟩ else .error (.corrupt "workspace id is not 16 bytes")

def recordValue (id : WorkspaceId) (r : Record D) : Value :=
  .array [.bytes id.bytes, .uint 2, .text (String.ofList r.name),
    .array (r.facets.elems.map fun f => .text f.asStr), .text (String.ofList r.head),
    refsMap r.branches, refsMap r.tags]

def encode (reg : Registry D) : Result Bytes :=
  Cbor.encode (.array (reg.byId.entries.map fun e => recordValue e.1 e.2))

def recordFields : Fields (Record D) := do
  let version ← Fields.uint
  if version ≠ 2 then throw (.corrupt "unsupported workspace record version")
  else
    let name ← Fields.text
    let facets ← facetsFromArray (← Fields.array)
    let head ← Fields.text
    let branches ← refsFromMap (← Fields.map)
    let tags ← refsFromMap (← Fields.map)
    Fields.end
    return ⟨name.toList, facets, branches, tags, head.toList⟩

def decodeRecord (item : Value) : Result (WorkspaceId × Record D) := do
  let fields ← asArray item
  let (raw, rest) ← Fields.bytes fields
  let id ← idBytes raw
  if fields.length = 7 then
    let (r, _) ← recordFields rest
    return (id, r)
  else .error (.corrupt "workspace record field count")

def addRecord (reg : Registry D) (id : WorkspaceId) (r : Record D) : Result (Registry D) :=
  if h : reg.byName.get r.name = none then .ok (reg.insertRecord id r h)
  else .error (.corrupt "duplicate workspace name")

def decode (bytes : Bytes) : Result (Registry D) := do
  let items ← Cbor.decodeArray bytes
  items.foldlM (fun reg item => do
    let (id, r) ← decodeRecord item
    reg.addRecord id r) new

/-- Every length fits a `u64`. -/
structure Sized (reg : Registry D) : Prop where
  count : reg.byId.entries.length < 2 ^ 64
  records : ∀ e ∈ reg.byId.entries, Codec.Sized (recordValue e.1 e.2)

/-- Every name of the index is that of its workspace. -/
def Exact (reg : Registry D) : Prop :=
  ∀ name id, reg.byName.get name = some id → ∃ r, reg.byId.get id = some r ∧ r.name = name

/-! ## Reading back -/

section RoundTrip

theorem nodup_refs {refs : SortedMap Path D} (hs : Codec.Sized (refsMap refs)) :
    ((refs.entries.map fun e => ((.text (String.ofList e.1) : Value),
      (.bytes (DigestCode.bytes e.2) : Value))).map fun p => Codec.keyBytes p.1).Nodup := by
  have hsized := Codec.sizedPairs_iff.mp hs.2
  rw [map_map, nodup_iff_pairwise_ne, pairwise_map]
  refine refs.ascending.imp_of_mem fun {a b} ha hb hab he => ?_
  have hname := Codec.keyBytes_text_inj (hsized _ (mem_map_of_mem ha)).1
    (hsized _ (mem_map_of_mem hb)).1 he
  exact hab.ne (String.ofList_injective hname)

theorem encode_refsMap {refs : SortedMap Path D} (hs : Codec.Sized (refsMap refs)) :
    ∃ b, Codec.encode (refsMap refs) = .ok b := by
  refine Codec.encode_map_ok (fun p hp => ?_) (nodup_refs hs)
  obtain ⟨e, -, rfl⟩ := mem_map.mp hp
  exact ⟨⟨_, rfl⟩, _, rfl⟩

theorem refsFromMap_canon (refs : SortedMap Path D) : ∃ pairs,
    Codec.canon (refsMap refs) = .map pairs ∧ refsFromMap pairs = .ok refs := by
  refine ⟨_, rfl, ?_⟩
  have hcanon : Codec.canonPairs (refs.entries.map fun e =>
      ((.text (String.ofList e.1) : Value), (.bytes (DigestCode.bytes e.2) : Value))) =
      refs.entries.map fun e => (.text (String.ofList e.1), .bytes (DigestCode.bytes e.2)) := by
    rw [Codec.canonPairs_eq_map, map_map]
    rfl
  have hread := mapM_of_ok refs.entries (f := fun p : Value × Value => do
      let name ← asText p.1
      let d ← asDigest p.2
      return (name.toList, (d : D)))
    (g := fun e => (.text (String.ofList e.1), .bytes (DigestCode.bytes e.2))) fun e _ => by
      simp only [asText, ok_bind, asDigest_bytes, String.toList_ofList]
      rfl
  rw [hcanon]
  obtain ⟨es, hes, hperm⟩ := mapM_of_perm (perm_insertionSort
    (fun a b : Value × Value => Codec.keyBytes a.1 ≤ Codec.keyBytes b.1) _) hread
  rw [refsFromMap, hes, ok_bind, ofList_of_perm hperm]
  rfl

theorem encode_recordValue {id : WorkspaceId} {r : Record D} (hs : Codec.Sized (recordValue id r)) :
    ∃ b, Codec.encode (recordValue id r) = .ok b := by
  have hsized := Codec.sizedItems_iff.mp hs.2
  have hfacets : ∃ b, Codec.encode (.array (r.facets.elems.map fun f => .text f.asStr)) = .ok b := by
    refine Codec.encode_array_ok fun v hv => ?_
    obtain ⟨f, -, rfl⟩ := mem_map.mp hv
    exact ⟨_, rfl⟩
  have hbranches := encode_refsMap (hsized (refsMap r.branches) (by simp))
  have htags := encode_refsMap (hsized (refsMap r.tags) (by simp))
  refine Codec.encode_array_ok fun v hv => ?_
  simp only [mem_cons, not_mem_nil, or_false] at hv
  rcases hv with rfl | rfl | rfl | rfl | rfl | rfl | rfl
  · exact ⟨_, rfl⟩
  · exact ⟨_, rfl⟩
  · exact ⟨_, rfl⟩
  · exact hfacets
  · exact ⟨_, rfl⟩
  · exact hbranches
  · exact htags

theorem recordFields_ok (name head : String) {fs : List Value} {bs ts : List (Value × Value)}
    {facets : SortedSet FacetKind} {branches tags : SortedMap Path D}
    (hfacets : facetsFromArray fs = .ok facets) (hbranches : refsFromMap bs = .ok branches)
    (htags : refsFromMap ts = .ok tags) :
    recordFields [.uint 2, .text name, .array fs, .text head, .map bs, .map ts] =
      .ok (⟨name.toList, facets, branches, tags, head.toList⟩, []) := by
  rw [recordFields, bind_of_ok (uint_cons ..), if_neg (by simp),
    bind_of_ok (text_cons ..), bind_of_ok (array_cons ..),
    bind_of_ok (lift_of_ok hfacets _), bind_of_ok (text_cons ..),
    bind_of_ok (map_cons ..), bind_of_ok (lift_of_ok hbranches _),
    bind_of_ok (map_cons ..), bind_of_ok (lift_of_ok htags _)]
  rfl

theorem depth_refsMap (refs : SortedMap Path D) : Codec.depth (refsMap refs) ≤ 1 := by
  refine Codec.depthPairs_le fun p hp => ?_
  obtain ⟨e, -, rfl⟩ := mem_map.mp hp
  exact ⟨le_rfl, le_rfl⟩

theorem depth_recordValue (id : WorkspaceId) (r : Record D) : Codec.depth (recordValue id r) ≤ 2 := by
  have hfacets : Codec.depth (.array (r.facets.elems.map fun f => .text f.asStr)) ≤ 1 := by
    refine Codec.depthItems_le fun v hv => ?_
    obtain ⟨f, -, rfl⟩ := mem_map.mp hv
    exact le_rfl
  refine Codec.depthItems_le fun v hv => ?_
  simp only [mem_cons, not_mem_nil, or_false] at hv
  rcases hv with rfl | rfl | rfl | rfl | rfl | rfl | rfl
  · exact one_le_two
  · exact one_le_two
  · exact one_le_two
  · exact Nat.succ_le_succ hfacets
  · exact one_le_two
  · exact Nat.succ_le_succ (depth_refsMap r.branches)
  · exact Nat.succ_le_succ (depth_refsMap r.tags)

theorem decodeRecord_canon (id : WorkspaceId) (r : Record D) :
    decodeRecord (Codec.canon (recordValue id r)) = .ok (id, r) := by
  obtain ⟨bs, hbs, hbranches⟩ := refsFromMap_canon r.branches
  obtain ⟨ts, hts, htags⟩ := refsFromMap_canon r.tags
  have hfacets : facetsFromArray (Codec.canonItems (r.facets.elems.map fun f => .text f.asStr)) =
      .ok r.facets := by
    have hcanon : Codec.canonItems (r.facets.elems.map fun f => (.text f.asStr : Value)) =
        r.facets.elems.map fun f => .text f.asStr := by
      rw [Codec.canonItems_eq_map, map_map]
      rfl
    rw [hcanon, facetsFromArray, mapM_of_ok _ fun f _ => ?_, ok_bind, SortedSet.ofList_elems]
    · rfl
    · exact FacetKind.parse_asStr f
  have hcanon : Codec.canon (recordValue id r) = .array [.bytes id.bytes, .uint 2,
      .text (String.ofList r.name), .array (Codec.canonItems (r.facets.elems.map fun f =>
        .text f.asStr)), .text (String.ofList r.head), .map bs, .map ts] := by
    rw [← hbs, ← hts]
    rfl
  have hid : idBytes id.bytes = .ok id := dif_pos id.length_bytes
  have hfields := recordFields_ok (String.ofList r.name) (String.ofList r.head) hfacets hbranches htags
  rw [hcanon, decodeRecord, asArray, ok_bind]
  change (idBytes id.bytes >>= fun id => if 7 = 7 then _ else _) = _
  rw [hid, ok_bind, if_pos rfl, hfields]
  simp

omit [DigestCode D] in
theorem eq_of_exact {reg reg' : Registry D} (h : reg.Exact) (h' : reg'.Exact)
    (hid : reg'.byId = reg.byId) : reg' = reg := by
  have hname : reg'.byName = reg.byName := by
    refine ext_get fun name => Option.ext fun id => ?_
    constructor
    · intro hn
      obtain ⟨r, hr, rfl⟩ := h' name id hn
      exact reg.indexed (hid ▸ hr)
    · intro hn
      obtain ⟨r, hr, rfl⟩ := h name id hn
      exact reg'.indexed (hid ▸ hr)
  obtain ⟨_, _, _, _⟩ := reg
  obtain ⟨_, _, _, _⟩ := reg'
  subst hid hname
  rfl

omit [DigestCode D] in
theorem exact_insertRecord {reg : Registry D} (h : reg.Exact) {id : WorkspaceId} {r : Record D}
    (hid : reg.byId.get id = none) (hname : reg.byName.get r.name = none) :
    (reg.insertRecord id r hname).Exact := by
  intro name id' hn
  change (reg.byName.insert r.name id).get name = some id' at hn
  change ∃ r', (reg.byId.insert id r).get id' = some r' ∧ r'.name = name
  rw [get_insert] at hn ⊢
  split_ifs at hn with heq
  · cases hn
    exact ⟨r, if_pos rfl, heq⟩
  · obtain ⟨r', hr', hr''⟩ := h name id' hn
    refine ⟨r', ?_, hr''⟩
    rw [if_neg fun he => by simp [← he, hid] at hr', hr']

omit [DigestCode D] in
theorem foldlM_addRecord {l : List (WorkspaceId × Record D)} (reg : Registry D) (hreg : reg.Exact)
    (hid : ∀ e ∈ l, reg.byId.get e.1 = none) (hname : ∀ e ∈ l, reg.byName.get e.2.name = none)
    (hl : l.Pairwise fun a b => a.1 ≠ b.1 ∧ a.2.name ≠ b.2.name) :
    ∃ reg', l.foldlM (fun reg e => reg.addRecord e.1 e.2) reg = .ok reg' ∧ reg'.Exact ∧
      reg'.byId.entries = OrdMap.insertAll l reg.byId.entries := by
  induction l generalizing reg with
  | nil => exact ⟨reg, rfl, hreg, rfl⟩
  | cons e l ih =>
    obtain ⟨hne, hl⟩ := pairwise_cons.mp hl
    have hn := hname e mem_cons_self
    rw [foldlM_cons, addRecord, dif_pos hn, ok_bind]
    refine ih _ (exact_insertRecord hreg (hid e mem_cons_self) hn) (fun e' he' => ?_)
      (fun e' he' => ?_) hl
    · change (reg.byId.insert e.1 e.2).get e'.1 = none
      rw [get_insert, if_neg (hne e' he').1]
      exact hid e' (mem_cons_of_mem _ he')
    · change (reg.byName.insert e.2.name e.1).get e'.2.name = none
      rw [get_insert, if_neg (hne e' he').2]
      exact hname e' (mem_cons_of_mem _ he')

/-- **The registry is read back**, with an exact index. -/
theorem decode_encode_registry {reg : Registry D} (hs : reg.Sized) : ∃ b reg',
    reg.encode = .ok b ∧ decode b = .ok reg' ∧ reg'.byId = reg.byId ∧ reg'.Exact := by
  set items := reg.byId.entries.map fun e => recordValue e.1 e.2
  have hitems : ∀ v ∈ items, ∃ e ∈ reg.byId.entries, recordValue e.1 e.2 = v :=
    fun v hv => mem_map.mp hv
  obtain ⟨b, hb⟩ : ∃ b, Codec.encode (.array items) = .ok b := by
    refine Codec.encode_array_ok fun v hv => ?_
    obtain ⟨e, he, rfl⟩ := hitems v hv
    exact encode_recordValue (hs.records e he)
  have hsized : Codec.Sized (.array items) := by
    refine ⟨by simpa [items] using hs.count, Codec.sizedItems_iff.mpr fun v hv => ?_⟩
    obtain ⟨e, he, rfl⟩ := hitems v hv
    exact hs.records e he
  have hdepth : Codec.depth (.array items) ≤ Codec.maxDepth := by
    refine (Codec.depthItems_le fun v hv => ?_).trans (by decide : 3 ≤ Codec.maxDepth)
    obtain ⟨e, -, rfl⟩ := hitems v hv
    exact Nat.succ_le_succ (depth_recordValue e.1 e.2)
  -- no two records share an id or a name
  have hdistinct : reg.byId.entries.Pairwise fun a b => a.1 ≠ b.1 ∧ a.2.name ≠ b.2.name := by
    refine reg.byId.ascending.imp_of_mem fun {a b} ha hb hab => ⟨hab.ne, fun hn => hab.ne ?_⟩
    have ha' := reg.indexed (get_eq_some.mpr ha)
    rw [hn, reg.indexed (get_eq_some.mpr hb)] at ha'
    exact (Option.some.inj ha').symm
  obtain ⟨reg', hfold, hexact, hent⟩ := foldlM_addRecord new (fun _ _ h => by simp [new] at h)
    (fun _ _ => rfl) (fun _ _ => rfl) hdistinct
  refine ⟨b, reg', Cbor.encode_eq_ok.mpr hb, ?_, ?_, hexact⟩
  · rw [decode, Cbor.decodeArray, Cbor.decode_eq_ok.mpr (Codec.decode_of_encode hsized hdepth hb)]
    change (Codec.canonItems items).foldlM _ _ = _
    rw [Codec.canonItems_eq_map, map_map, foldlM_map, ← hfold]
    refine foldlM_congr (fun e _ reg => ?_) new
    rw [Function.comp_apply, decodeRecord_canon, ok_bind]
  · refine ext_get fun id => ?_
    rw [SortedMap.get, hent]
    exact congrArg (OrdMap.get id) (OrdMap.insertAll_of_perm reg.byId.ascending (List.Perm.refl _))

end RoundTrip

end Registry

end UldrenLoom.Vcs
