import UldrenLoom.Kv.Model
import UldrenLoom.Tabular.Cell

/-!
# The records of the key-value facet

What the encoders of the facet write, its decoders read back, as far as the codec's nesting limit
allows.

* **`decodeArray_cell`**: an array that starts with a cell reads back exactly if the cell is nested
  at most 63 deep.
* **`readProllyRoot_encode`**: the root file is read back.
-/

namespace UldrenLoom.Kv

open ByteString Fallible Cbor Tabular Prolly
open Codec hiding Value encode decode maxDepth
open Vcs (Algo DigestCode)

/-! ## Arrays of cells and flat fields -/

variable {b : Bytes}

theorem encodeVec_eq_ok {v : Codec.Value} (h : encodeVec v = .ok b) :
    Codec.encode v = .ok b ∧ Sized v := by
  obtain ⟨b', hb', h⟩ := of_bind h
  split_ifs at h with hl
  cases h
  exact ⟨encode_eq_ok.mp hb', sized_of_encode v (encode_eq_ok.mp hb') hl⟩

theorem encodeVec_ends {v : Codec.Value} (h : ∃ b, Codec.encode v = .ok b) :
    Ends (fun b => encodeVec v = .ok b) (· = oversize) (encodeVec v) := by
  obtain ⟨b, hb⟩ := h
  have hv : encodeVec v = if b.length < 2 ^ 64 then .ok b else .error oversize := by
    rw [encodeVec, encode_eq_ok.mpr hb, ok_bind]
  rw [hv]
  split_ifs
  · exact rfl
  · exact rfl

theorem decodeArray_of_encode {items : List Codec.Value} (h : encodeVec (.array items) = .ok b)
    (hd : depthItems items ≤ Codec.maxDepth) : decodeArray b = .ok (canonItems items) := by
  obtain ⟨he, hs⟩ := encodeVec_eq_ok h
  rw [decodeArray, decode_eq_ok.mpr (decode_of_encode hs hd he)]
  rfl

theorem decodeArray_deep {items : List Codec.Value} (h : encodeVec (.array items) = .ok b)
    (hd : Codec.maxDepth < depthItems items) : ∃ e, decodeArray b = .error e := by
  obtain ⟨he, hs⟩ := encodeVec_eq_ok h
  cases hdec : decodeArray b with
  | error e => exact ⟨e, rfl⟩
  | ok r =>
    obtain ⟨w, hw, -⟩ := of_bind hdec
    exact absurd (decode_eq_ok.mp hw) (decode_ne_ok hs hd he w)

/-- A cell that can be read back from a record. -/
def Shallow (key : Value) : Prop := nestDepth key ≤ 63

instance (key : Value) : Decidable (Shallow key) := inferInstanceAs (Decidable (_ ≤ _))

variable {fs : List Codec.Value}

theorem depthItems_cell (key : Value) (hf : ∀ f ∈ fs, Flat f) :
    depthItems (cellValue key :: fs) = 2 * nestDepth key + 2 := by
  have := depthItems_flat hf
  rw [depthItems, depth_cellValue]
  omega

variable {key : Value}

theorem decodeArray_cell (hf : ∀ f ∈ fs, Flat f)
    (h : encodeVec (.array (cellValue key :: fs)) = .ok b) (hk : Shallow key) :
    decodeArray b = .ok (canon (cellValue key) :: fs) := by
  rw [decodeArray_of_encode h, canonItems, canonItems_flat hf]
  rw [depthItems_cell key hf, Codec.maxDepth]
  have : nestDepth key ≤ 63 := hk
  omega

theorem decodeArray_deep_cell (hf : ∀ f ∈ fs, Flat f)
    (h : encodeVec (.array (cellValue key :: fs)) = .ok b) (hk : ¬ Shallow key) :
    ∃ e, decodeArray b = .error e := by
  refine decodeArray_deep h ?_
  rw [depthItems_cell key hf, Codec.maxDepth]
  have : ¬ nestDepth key ≤ 63 := hk
  omega

theorem encodeVec_cell_ends (hw : key.Wf) (hf : ∀ f ∈ fs, Flat f) :
    Ends (fun b => encodeVec (.array (cellValue key :: fs)) = .ok b) (· = oversize)
      (encodeVec (.array (cellValue key :: fs))) := by
  exact encodeVec_ends (encode_array_ok (List.forall_mem_cons.mpr
    ⟨encode_cellValue hw, fun v hv => (hf v hv).encodes⟩))

/-! ## Entries and anchors -/

section Records

variable {D : Type} [DigestCode D]

theorem digestFromBytes_bytes (d : D) : digestFromBytes (DigestCode.bytes d) = .ok d := by
  rw [digestFromBytes, DigestCode.ofBytes_bytes]

theorem flat_entry (d : D) (len : UInt64) :
    ∀ f ∈ [Codec.Value.bytes (DigestCode.bytes d), .uint len], Flat f := by
  simp [flat_bytes, flat_uint]

theorem flat_anchor (anchor : UInt64) : ∀ f ∈ [Codec.Value.uint anchor], Flat f := by
  simp [flat_uint]

variable {key : Value} {b : Bytes}

theorem decodeKvEntry_encode (hw : key.Wf) (hk : Shallow key) {d : D} {len : ℕ}
    (h : encodeKvEntry key d len = .ok b) : decodeKvEntry b = .ok (key, d, UInt64.ofNat len) := by
  rw [decodeKvEntry, decodeArray_cell (flat_entry d _) h hk]
  simp only [ok_bind, StateT.run', next_cons, bind_apply, cellFrom_canon hw, Fields.bytes,
    asBytes, lift_apply, digestFromBytes_bytes, Fields.uint_cons, Fields.end, pure_apply]
  rfl

theorem decodeKvEntry_deep (hk : ¬ Shallow key) {d : D} {len : ℕ}
    (h : encodeKvEntry key d len = .ok b) :
    ∃ e, (decodeKvEntry b : Result (Value × D × UInt64)) = .error e := by
  obtain ⟨e, he⟩ := decodeArray_deep_cell (flat_entry d _) h hk
  exact ⟨e, by rw [decodeKvEntry, he]; rfl⟩

variable {anchor : UInt64}

theorem decodeKvAnchor_eq (hw : key.Wf) (hk : Shallow key) (h : encodeKvAnchor key anchor = .ok b) :
    decodeKvAnchor b = if anchor = 0 then .error (.corrupt "KV anchor must be greater than zero")
      else .ok (key, anchor) := by
  rw [decodeKvAnchor, decodeArray_cell (flat_anchor _) h hk]
  simp only [ok_bind, StateT.run', anchorFields, next_cons, bind_apply, cellFrom_canon hw,
    Fields.uint_cons, Fields.end]
  split_ifs <;> rfl

theorem decodeKvAnchor_encode (hw : key.Wf) (hk : Shallow key) (ha : anchor ≠ 0)
    (h : encodeKvAnchor key anchor = .ok b) : decodeKvAnchor b = .ok (key, anchor) := by
  rw [decodeKvAnchor_eq hw hk h, if_neg ha]

theorem decodeKvAnchor_deep (hk : ¬ Shallow key) (h : encodeKvAnchor key anchor = .ok b) :
    ∃ e, decodeKvAnchor b = .error e := by
  obtain ⟨e, he⟩ := decodeArray_deep_cell (flat_anchor anchor) h hk
  exact ⟨e, by rw [decodeKvAnchor, he]; rfl⟩

/-! ## The root file -/

theorem flat_optionalDigest (d : Option D) : Flat (optionalDigestValue d) := by
  cases d with
  | none => exact ⟨rfl, rfl, _, rfl⟩
  | some d => exact flat_bytes _

theorem optionalDigest_value (d : Option D) :
    optionalDigestFromValue (optionalDigestValue d) = .ok d := by
  cases d with
  | none => rfl
  | some d =>
    rw [optionalDigestValue, optionalDigestFromValue, digestFromBytes_bytes]
    rfl

theorem algoFromCode_code (algo : Algo) :
    algoFromCode (UInt64.ofNat (algoCode algo).toNat).toUInt8 = .ok algo := by
  cases algo <;> rfl

variable (root : KvProllyRoot D)

def rootItems : List Codec.Value :=
  [.text prollyMapRootSchema, .uint (UInt64.ofNat (algoCode (DigestCode.algo D)).toNat),
    optionalDigestValue root.entries, optionalDigestValue root.anchors]

theorem flat_rootItems : ∀ f ∈ rootItems root, Flat f := by
  intro f hf
  simp only [rootItems, List.mem_cons, List.not_mem_nil, or_false] at hf
  rcases hf with rfl | rfl | rfl | rfl
  · exact flat_text _
  · exact flat_uint _
  · exact flat_optionalDigest _
  · exact flat_optionalDigest _

theorem encodeProllyRoot_ends :
    Ends (fun b => encodeProllyRoot root = .ok b) (· = oversize) (encodeProllyRoot root) :=
  encodeVec_ends (encode_array_ok fun v hv => (flat_rootItems root v hv).encodes)

theorem decodeArray_root {root : KvProllyRoot D} (h : encodeProllyRoot root = .ok b) :
    decodeArray b = .ok (rootItems root) := by
  have hd := depthItems_flat (flat_rootItems root)
  rw [decodeArray_of_encode h (hd.trans (by decide))]
  exact congrArg Except.ok (canonItems_flat (flat_rootItems root))

theorem prollyRootFields_items : StateT.run' prollyRootFields (rootItems root) = .ok root := by
  have hlt : ¬ 256 ≤ (UInt64.ofNat (algoCode (DigestCode.algo D)).toNat).toNat := by
    cases DigestCode.algo D <;> decide
  simp only [StateT.run', prollyRootFields, rootItems, Fields.text_cons, bind_apply, ok_bind,
    ne_eq, not_true_eq_false, if_false, Fields.uint_cons, hlt, lift_apply, algoFromCode_code,
    next_cons, optionalDigest_value, Fields.end, pure_apply]
  rfl

theorem isProllyRoot_items : isProllyRoot (rootItems root) = true := by
  simp [isProllyRoot, rootItems]

variable {hash : Node D → D}

/-- **The root file reads back.** -/
theorem readProllyRoot_encode {root : KvProllyRoot D} {c : Collection hash}
    (h : encodeProllyRoot root = .ok b) (hc : c.root = some b) :
    readProllyRoot c = .ok (some root) := by
  rw [readProllyRoot, hc]
  dsimp only
  rw [decodeArray_root h, ok_bind, if_pos (isProllyRoot_items root), prollyRootFields_items]
  rfl

end Records

end UldrenLoom.Kv
