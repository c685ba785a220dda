import UldrenLoom.Codec.RoundTrip
import UldrenLoom.Tabular.Row

/-!
# Which rows can be read back

* **`decodeRow_encodeRow`**, **`decodeRow_ne_ok`**: a row nested at most 63 deep reads back, a
  deeper one is never read back.
* **`row_roundTrip_iff`**: when a row reads back that passed `checkRow`.
-/

set_option linter.unusedSimpArgs false
set_option linter.unusedSectionVars false

namespace UldrenLoom.Tabular

open ByteString Cbor Fallible List Value BitVec
open Codec (depth depthItems depthPairs canon canonItems canonPairs Sized SizedItems SizedPairs
  encode_array_ok encode_map_ok)

/-! ## Scalars and nested values -/

def Value.isScalar : Value → Bool
  | .list _ | .map _ => false
  | _ => true

section Induction

variable {P : Value → Prop} (scalar : ∀ v, v.isScalar = true → P v)
  (list : ∀ items, (∀ v ∈ items, P v) → P (.list items))
  (map : ∀ entries : List (Text × Value), (∀ e ∈ entries, P e.2) → P (.map entries))

include scalar list map

mutual

/-- **Induction over values**: scalars, and lists and maps over the cells inside them. -/
@[elab_as_elim]
theorem Value.nested_induction : ∀ v, P v
  | .list items => list items (nested_items items)
  | .map entries => map entries (nested_entries entries)
  | .null | .bool _ | .int _ | .float _ | .text _ | .bytes _ | .i8 _ | .i16 _ | .i32 _ | .i128 _
  | .u8 _ | .u16 _ | .u32 _ | .u64 _ | .u128 _ | .f32 _ | .decimal _ _ | .date _ | .time _
  | .timestamp _ | .interval _ _ | .uuid _ | .inet _ | .point _ _ => scalar _ rfl
termination_by structural v => v

theorem Value.nested_items : ∀ (vs : List Value), ∀ v ∈ vs, P v
  | [], _, h => absurd h not_mem_nil
  | w :: ws, v, h => (mem_cons.mp h).elim (fun e => e ▸ nested_induction w)
      (nested_items ws v)
termination_by structural vs => vs

theorem Value.nested_entries : ∀ (es : List (Text × Value)), ∀ e ∈ es, P e.2
  | [], _, h => absurd h not_mem_nil
  | (_, w) :: ws, e, h => (mem_cons.mp h).elim (fun he => he ▸ nested_induction w)
      (nested_entries ws e)
termination_by structural es => es

end

end Induction

/-! ## Flat fields -/

/-- A CBOR value without parts: it is its own canonical form, and the encoder takes it. -/
structure Flat (f : Codec.Value) : Prop where
  depth_eq : depth f = 0
  canon_eq : canon f = f
  encodes : ∃ b, Codec.encode f = .ok b

theorem flat_uint (n : UInt64) : Flat (.uint n) := ⟨rfl, rfl, _, rfl⟩

theorem flat_bool (b : Bool) : Flat (.bool b) := ⟨rfl, rfl, _, rfl⟩

theorem flat_bytes (b : Bytes) : Flat (.bytes b) := ⟨rfl, rfl, _, rfl⟩

theorem flat_text (s : String) : Flat (.text s) := ⟨rfl, rfl, _, rfl⟩

theorem flat_int (i : ℤ) : Flat (.int i) := by
  unfold Codec.Value.int
  split_ifs
  · exact flat_uint _
  · exact ⟨rfl, rfl, _, rfl⟩

theorem sized_int (i : ℤ) : Sized (.int i) := by
  unfold Codec.Value.int
  split_ifs <;> trivial

/-! ## Reading the fields back -/

variable {w : ℕ}

theorem asInt_int (hw : 0 < w) (hw' : w ≤ 64) (x : BitVec w) :
    asInt (.int x.toInt) = .ok x.toInt := by
  have hlo := le_toInt x
  have hhi := toInt_lt (x := x)
  have hp : (2 : ℤ) ^ (w - 1) ≤ 2 ^ 63 := pow_le_pow_right₀ (by norm_num) (by omega)
  unfold Codec.Value.int
  split_ifs with h
  · have : (UInt64.ofNat x.toInt.toNat).toNat = x.toInt.toNat :=
      Codec.toNat_ofNat_of_lt (by omega)
    rw [asInt, this, if_pos (by omega), Int.toNat_of_nonneg h]
  · have : (UInt64.ofNat (-1 - x.toInt).toNat).toNat = (-1 - x.toInt).toNat :=
      Codec.toNat_ofNat_of_lt (by omega)
    rw [asInt, this, if_pos (by omega), Int.toNat_of_nonneg (by omega)]
    congr 1
    omega

theorem narrowInt_toInt (name : String) (x : BitVec w) : narrowInt w name x.toInt = .ok x := by
  rw [narrowInt, if_pos ⟨le_toInt x, toInt_lt⟩, ofInt_toInt]

theorem narrowUint_toNat (hw : w ≤ 64) (name : String) (x : BitVec w) :
    narrowUint w name (UInt64.ofNat x.toNat) = .ok x := by
  have hlt : x.toNat < 2 ^ 64 := x.isLt.trans_le (Nat.pow_le_pow_right (by norm_num) hw)
  rw [narrowUint, Codec.toNat_ofNat_of_lt hlt, if_pos x.isLt, ofNat_toNat, setWidth_eq]

theorem fromLeBytes_leBytes (x : BitVec 128) : fromLeBytes (leBytes 16 x.toNat) = .ok x := by
  have hlt : x.toNat < 256 ^ 16 := by have := x.isLt; omega
  rw [fromLeBytes, fixed, if_pos (length_leBytes _ _), ok_bind, leNat_leBytes_of_lt hlt,
    ofNat_toNat, setWidth_eq]

theorem inetFrom_v4 (a : BitVec 32) : inetFrom 4 (toBeBytes 4 a) = .ok (.v4 a) := by
  have hlt : a.toNat < 256 ^ 4 := by have := a.isLt; omega
  have hf : fixed 4 (toBeBytes 4 a) = .ok (toBeBytes 4 a) := if_pos (length_beBytes _ _)
  change (fixed 4 (toBeBytes 4 a) >>=
    fun b => Except.ok (IpAddr.v4 (BitVec.ofNat 32 (beNat b)))) = _
  rw [hf, ok_bind, toBeBytes, beNat_beBytes_of_lt hlt, ofNat_toNat, setWidth_eq]

theorem inetFrom_v6 (a : BitVec 128) : inetFrom 6 (toBeBytes 16 a) = .ok (.v6 a) := by
  have hlt : a.toNat < 256 ^ 16 := by have := a.isLt; omega
  have hf : fixed 16 (toBeBytes 16 a) = .ok (toBeBytes 16 a) := if_pos (length_beBytes _ _)
  change (fixed 16 (toBeBytes 16 a) >>=
    fun b => Except.ok (IpAddr.v6 (BitVec.ofNat 128 (beNat b)))) = _
  rw [hf, ok_bind, toBeBytes, beNat_beBytes_of_lt hlt, ofNat_toNat, setWidth_eq]

variable {α : Type}

@[simp] theorem bind_apply {β : Type} (x : Fields α) (f : α → Fields β) (s : List Codec.Value) :
    (x >>= f) s = (x s >>= fun p => f p.1 p.2) := rfl

@[simp] theorem map_apply {β : Type} (f : α → β) (x : Fields α) (s : List Codec.Value) :
    (f <$> x) s = (x s >>= fun p => .ok (f p.1, p.2)) := rfl

@[simp] theorem pure_apply (a : α) (s : List Codec.Value) :
    (pure a : Fields α) s = .ok (a, s) := rfl

@[simp] theorem lift_apply (x : Result α) (s : List Codec.Value) :
    (liftM x : Fields α) s = (x >>= fun a => .ok (a, s)) := rfl

@[simp] theorem next_cons (as : Codec.Value → Result α) (v : Codec.Value)
    (s : List Codec.Value) : Fields.next as (v :: s) = (as v >>= fun a => .ok (a, s)) := rfl

/-- What is known of the fields of a scalar cell. -/
structure ScalarFields (v : Value) (tag : UInt64) (fields : List Codec.Value) : Prop where
  cell : cellValue v = .array (.uint tag :: fields)
  tag_lt : tag.toNat < 24
  short : fields.length ≤ 2
  flat : ∀ f ∈ fields, Flat f
  sized : v.Wf → SizedItems fields
  read : scalarFrom tag.toNat fields = .ok (v, [])

variable {v : Value} {t : UInt64}

theorem scalar_uint {n : UInt64} (hc : cellValue v = .array [.uint t, .uint n]) (ht : t.toNat < 24)
    (hr : scalarFrom t.toNat [.uint n] = .ok (v, [])) : ∃ tag fields, ScalarFields v tag fields :=
  ⟨t, _, hc, ht, by simp, by simp [flat_uint], fun _ => ⟨trivial, trivial⟩, hr⟩

theorem scalar_int {i : ℤ} (hc : cellValue v = .array [.uint t, .int i]) (ht : t.toNat < 24)
    (hr : scalarFrom t.toNat [.int i] = .ok (v, [])) : ∃ tag fields, ScalarFields v tag fields :=
  ⟨t, _, hc, ht, by simp, by simp [flat_int], fun _ => ⟨sized_int i, trivial⟩, hr⟩

variable {b : Bytes}

theorem scalar_bytes (hc : cellValue v = .array [.uint t, .bytes b]) (ht : t.toNat < 24)
    (hs : v.Wf → b.length < 2 ^ 64) (hr : scalarFrom t.toNat [.bytes b] = .ok (v, [])) :
    ∃ tag fields, ScalarFields v tag fields :=
  ⟨t, _, hc, ht, by simp, by simp [flat_bytes], fun h => ⟨hs h, trivial⟩, hr⟩

theorem length_leBytes_lt (n : ℕ) : (leBytes 16 n).length < 2 ^ 64 := by
  rw [length_leBytes]
  decide

/-- **The fields of a scalar cell** are flat, and `scalarFrom` reads them back. -/
theorem cellValue_scalar (h : v.isScalar = true) : ∃ tag fields, ScalarFields v tag fields := by
  have h64 : ∀ x : BitVec 64, asInt (.int x.toInt) = .ok x.toInt := asInt_int (by decide) le_rfl
  have h32 : ∀ x : BitVec 32, asInt (.int x.toInt) = .ok x.toInt :=
    asInt_int (by decide) (by decide)
  have h16 : ∀ x : BitVec 16, asInt (.int x.toInt) = .ok x.toInt :=
    asInt_int (by decide) (by decide)
  have h8 : ∀ x : BitVec 8, asInt (.int x.toInt) = .ok x.toInt :=
    asInt_int (by decide) (by decide)
  cases v
  case list | map => simp [Value.isScalar] at h
  case null => exact ⟨0, _, rfl, by decide, by simp, by simp, fun _ => trivial, rfl⟩
  case bool b =>
    exact ⟨1, _, rfl, by decide, by simp, by simp [flat_bool], fun _ => ⟨trivial, trivial⟩, rfl⟩
  case text s =>
    exact ⟨4, _, rfl, by decide, by simp, by simp [flat_text], fun h => ⟨h, trivial⟩, rfl⟩
  case float | u64 | time => exact scalar_uint rfl (by decide) rfl
  case u8 | u16 | u32 | f32 =>
    exact scalar_uint rfl (by decide)
      (by simp [scalarFrom, Fields.uint, asUint, asU8, asU16, asU32, narrowUint_toNat])
  case int | timestamp | i8 | i16 | i32 | date =>
    exact scalar_int rfl (by decide)
      (by simp [scalarFrom, Fields.int, h8, h16, h32, h64, asI8, asI16, asI32, narrowInt_toInt])
  case bytes b => exact scalar_bytes rfl (by decide) id rfl
  case i128 | u128 | uuid =>
    exact scalar_bytes rfl (by decide) (fun _ => length_leBytes_lt _)
      (by simp [scalarFrom, Fields.bytes, asBytes, fromLeBytes_leBytes])
  case point x y =>
    exact ⟨23, _, rfl, by decide, by simp, by simp [flat_uint], fun _ => ⟨trivial, trivial, trivial⟩, rfl⟩
  case interval months micros =>
    exact ⟨20, _, rfl, by decide, by simp, by simp [flat_int],
      fun _ => ⟨sized_int _, sized_int _, trivial⟩,
      by simp [scalarFrom, Fields.int, h32, h64, asI32, narrowInt_toInt]⟩
  case decimal mantissa scale =>
    exact ⟨16, _, rfl, by decide, by simp, by simp [flat_uint, flat_bytes],
      fun _ => ⟨length_leBytes_lt _, trivial, trivial⟩,
      by simp [scalarFrom, Fields.bytes, Fields.uint, asBytes, asUint, fromLeBytes_leBytes, asU32,
        narrowUint_toNat]⟩
  case inet ip =>
    cases ip with
    | v4 a =>
      exact ⟨22, _, rfl, by decide, by simp, by simp [flat_uint, flat_bytes],
        fun _ => ⟨trivial, by simp [Sized, toBeBytes], trivial⟩,
        by simp [scalarFrom, Fields.bytes, Fields.uint, asBytes, asUint, inetFrom_v4]⟩
    | v6 a =>
      exact ⟨22, _, rfl, by decide, by simp, by simp [flat_uint, flat_bytes],
        fun _ => ⟨trivial, by simp [Sized, toBeBytes], trivial⟩,
        by simp [scalarFrom, Fields.bytes, Fields.uint, asBytes, asUint, inetFrom_v6]⟩

/-! ## Depth and size -/

theorem depthItems_flat {fs : List Codec.Value} (h : ∀ f ∈ fs, Flat f) : depthItems fs ≤ 1 := by
  induction fs with
  | nil => exact Nat.zero_le _
  | cons f fs ih =>
    have hf := (h f mem_cons_self).depth_eq
    have hfs := ih fun g hg => h g (mem_cons_of_mem _ hg)
    rw [depthItems]
    omega

theorem nestDepth_scalar (h : v.isScalar = true) : nestDepth v = 0 := by
  cases v <;> first | rfl | simp [Value.isScalar] at h

variable {vs : List Value}

theorem depth_cellValues (h : ∀ v ∈ vs, depth (cellValue v) = 2 * nestDepth v + 1) :
    depthItems (cellValues vs) = 2 * nestItems vs := by
  induction vs with
  | nil => rfl
  | cons v vs ih =>
    rw [cellValues, depthItems, nestItems, h v mem_cons_self,
      ih fun w hw => h w (mem_cons_of_mem _ hw)]
    omega

variable {es : List (Text × Value)}

theorem depth_cellEntries (h : ∀ e ∈ es, depth (cellValue e.2) = 2 * nestDepth e.2 + 1) :
    depthPairs (cellEntries es) = 2 * nestEntries es := by
  induction es with
  | nil => rfl
  | cons e es ih =>
    rw [cellEntries, depthPairs, nestEntries, h e mem_cons_self,
      ih fun w hw => h w (mem_cons_of_mem _ hw)]
    simp only [depth]
    omega

/-- **A cell takes one CBOR level, and two more for each level of nesting.** -/
theorem depth_cellValue (v : Value) : depth (cellValue v) = 2 * nestDepth v + 1 := by
  induction v using nested_induction with
  | scalar v h =>
    obtain ⟨tag, fields, hf⟩ := cellValue_scalar h
    have := depthItems_flat hf.flat
    rw [hf.cell, nestDepth_scalar h]
    simp only [depth, depthItems]
    omega
  | list items ih =>
    simp only [cellValue, nestDepth, depth, depthItems, depth_cellValues ih]
    omega
  | map entries ih =>
    simp only [cellValue, nestDepth, depth, depthItems, depth_cellEntries ih]
    omega

theorem sized_cellValues (h : ∀ v ∈ vs, v.Wf → Sized (cellValue v)) (hw : WfItems vs) :
    (cellValues vs).length = vs.length ∧ SizedItems (cellValues vs) := by
  induction vs with
  | nil => exact ⟨rfl, trivial⟩
  | cons v vs ih =>
    obtain ⟨hl, hs⟩ := ih (fun w hw => h w (mem_cons_of_mem _ hw)) hw.2
    exact ⟨congrArg (· + 1) hl, h v mem_cons_self hw.1, hs⟩

theorem sized_cellEntries (h : ∀ e ∈ es, e.2.Wf → Sized (cellValue e.2)) (hw : WfEntries es) :
    (cellEntries es).length = es.length ∧ SizedPairs (cellEntries es) := by
  induction es with
  | nil => exact ⟨rfl, trivial⟩
  | cons e es ih =>
    obtain ⟨hl, hs⟩ := ih (fun w hw => h w (mem_cons_of_mem _ hw)) hw.2.2
    exact ⟨congrArg (· + 1) hl, hw.1, h e mem_cons_self hw.2.1, hs⟩

theorem sized_cellValue (hw : v.Wf) : Sized (cellValue v) := by
  induction v using nested_induction with
  | scalar v h =>
    obtain ⟨tag, fields, hf⟩ := cellValue_scalar h
    have hl := hf.short
    rw [hf.cell]
    exact ⟨by rw [length_cons]; omega, trivial, hf.sized hw⟩
  | list items ih =>
    obtain ⟨hl, hs⟩ := sized_cellValues ih hw.2
    exact ⟨by simp, trivial, ⟨hl ▸ hw.1, hs⟩, trivial⟩
  | map entries ih =>
    obtain ⟨hl, hs⟩ := sized_cellEntries ih hw.2.2
    exact ⟨by simp, trivial, ⟨hl ▸ hw.1, hs⟩, trivial⟩

/-! ## The encoder accepts every cell -/

theorem mem_cellValues {c : Codec.Value} (h : c ∈ cellValues vs) : ∃ v ∈ vs, c = cellValue v := by
  induction vs with
  | nil => simp [cellValues] at h
  | cons v vs ih =>
    rcases mem_cons.mp h with rfl | h
    · exact ⟨v, mem_cons_self, rfl⟩
    · obtain ⟨w, hw, rfl⟩ := ih h
      exact ⟨w, mem_cons_of_mem _ hw, rfl⟩

theorem WfEntries.key_lt (h : WfEntries es) {e : Text × Value} (he : e ∈ es) :
    (strBytes e.1).length < 2 ^ 64 ∧ e.2.Wf := by
  induction es with
  | nil => simp at he
  | cons a es ih =>
    rcases mem_cons.mp he with rfl | he
    · exact ⟨h.1, h.2.1⟩
    · exact ih h.2.2 he

theorem WfItems.wf (h : WfItems vs) (hv : v ∈ vs) : v.Wf := by
  induction vs with
  | nil => simp at hv
  | cons a vs ih =>
    rcases mem_cons.mp hv with rfl | hv
    · exact h.1
    · exact ih h.2 hv

theorem cellEntries_eq (es : List (Text × Value)) :
    cellEntries es = es.map fun e => (.text e.1, cellValue e.2) := by
  induction es with
  | nil => rfl
  | cons e es ih => rw [cellEntries, ih, map_cons]

theorem nodup_keys (ha : OrdMap.Ascending es) (hw : WfEntries es) :
    ((cellEntries es).map fun p => Codec.keyBytes p.1).Nodup := by
  rw [cellEntries_eq, map_map, nodup_iff_pairwise_ne, pairwise_map]
  refine ha.imp_of_mem fun {a b} hma hmb hab e => ?_
  exact hab.ne (Codec.keyBytes_text_inj (hw.key_lt hma).1 (hw.key_lt hmb).1 e)

/-- **The encoder never fails on a well-formed cell.** -/
theorem encode_cellValue (hw : v.Wf) : ∃ b, Codec.encode (cellValue v) = .ok b := by
  induction v using nested_induction with
  | scalar v h =>
    obtain ⟨tag, fields, hf⟩ := cellValue_scalar h
    rw [hf.cell]
    refine encode_array_ok fun f hm => ?_
    rcases mem_cons.mp hm with rfl | hm
    · exact ⟨_, rfl⟩
    · exact (hf.flat f hm).encodes
  | list items ih =>
    have hi : ∃ b, Codec.encode (.array (cellValues items)) = .ok b := by
      refine encode_array_ok fun c hc => ?_
      obtain ⟨v, hv, rfl⟩ := mem_cellValues hc
      exact ih v hv (hw.2.wf hv)
    exact encode_array_ok (by simpa using ⟨⟨_, rfl⟩, hi⟩)
  | map entries ih =>
    have hi : ∃ b, Codec.encode (.map (cellEntries entries)) = .ok b := by
      refine encode_map_ok (fun p hp => ?_) (nodup_keys hw.2.1 hw.2.2)
      rw [cellEntries_eq] at hp
      obtain ⟨e, he, rfl⟩ := mem_map.mp hp
      exact ⟨⟨_, rfl⟩, ih e he (hw.2.2.key_lt he).2⟩
    exact encode_array_ok (by simpa using ⟨⟨_, rfl⟩, hi⟩)

/-! ## The canonical form decodes to the cell -/

theorem canonItems_flat {fs : List Codec.Value} (h : ∀ f ∈ fs, Flat f) : canonItems fs = fs := by
  induction fs with
  | nil => rfl
  | cons f fs ih =>
    rw [canonItems, (h f mem_cons_self).canon_eq, ih fun g hg => h g (mem_cons_of_mem _ hg)]

theorem cellFrom_scalar {fields : List Codec.Value} (h : ScalarFields v t fields) :
    cellFrom (.array (.uint t :: fields)) = .ok v := by
  have hne : ∀ n : UInt64, 24 ≤ n.toNat → t ≠ n := by
    rintro n hn rfl
    exact hn.not_gt h.tag_lt
  rw [cellFrom, cellFromFields, asUint, ok_bind, if_neg (hne 24 (by decide)),
    if_neg (hne 25 (by decide)), h.read]
  rfl

theorem cellFromItems_canon (h : ∀ v ∈ vs, cellFrom (canon (cellValue v)) = .ok v) :
    cellFromItems (canonItems (cellValues vs)) = .ok vs := by
  induction vs with
  | nil => rfl
  | cons v vs ih =>
    rw [cellValues, canonItems, cellFromItems, h v mem_cons_self, ok_bind,
      ih fun w hw => h w (mem_cons_of_mem _ hw)]
    rfl

/-- A CBOR pair decodes to an entry. -/
def PairFrom (p : Codec.Value × Codec.Value) (e : Text × Value) : Prop :=
  p.1 = .text e.1 ∧ cellFrom p.2 = .ok e.2

theorem cellFromPairs_of_forall₂ {ps : List (Codec.Value × Codec.Value)}
    (h : List.Forall₂ PairFrom ps es) (m : List (Text × Value)) :
    cellFromPairs ps m = .ok (OrdMap.insertAll es m) := by
  induction h generalizing m with
  | nil => rfl
  | @cons p e ps es hp _ ih =>
    obtain ⟨k, c⟩ := p
    obtain ⟨rfl, hc⟩ := hp
    change (cellFrom c >>= fun val => cellFromPairs ps (OrdMap.insert e.1 val m)) = _
    rw [hc, ok_bind]
    exact ih _

theorem forall₂_canonPairs (h : ∀ e ∈ es, cellFrom (canon (cellValue e.2)) = .ok e.2) :
    List.Forall₂ PairFrom (canonPairs (cellEntries es)) es := by
  induction es with
  | nil => exact .nil
  | cons e es ih =>
    exact .cons ⟨rfl, h e mem_cons_self⟩ (ih fun w hw => h w (mem_cons_of_mem _ hw))

/-- **The canonical form of a cell decodes to the cell**: inserting restores the order of the
map. -/
theorem cellFrom_canon (hw : v.Wf) : cellFrom (canon (cellValue v)) = .ok v := by
  induction v using nested_induction with
  | scalar v h =>
    obtain ⟨tag, fields, hf⟩ := cellValue_scalar h
    have hc : canon (cellValue v) = .array (.uint tag :: canonItems fields) := by
      rw [hf.cell]
      rfl
    rw [hc, canonItems_flat hf.flat]
    exact cellFrom_scalar hf
  | list items ih =>
    have hi := cellFromItems_canon fun v hv => ih v hv (hw.2.wf hv)
    change (cellFromItems (canonItems (cellValues items)) >>= _) = _
    rw [hi]
    rfl
  | map entries ih =>
    have hp := perm_insertionSort
      (fun a b : Codec.Value × Codec.Value => Codec.keyBytes a.1 ≤ Codec.keyBytes b.1)
      (canonPairs (cellEntries entries))
    obtain ⟨es, hes, hperm⟩ := perm_comp_forall₂ hp
      (forall₂_canonPairs fun e he => ih e he (hw.2.2.key_lt he).2)
    change (cellFromPairs _ [] >>= _) = _
    rw [cellFromPairs_of_forall₂ hes, OrdMap.insertAll_of_perm hw.2.1 hperm]
    rfl

/-! ## Rows -/

theorem nestItems_le {n : ℕ} : nestItems vs ≤ n + 1 ↔ ∀ v ∈ vs, nestDepth v ≤ n := by
  induction vs with
  | nil => simp [nestItems]
  | cons v vs ih => simp [nestItems, ih]

variable {row : Row}

theorem sized_row (hw : RowWf row) : Sized (.array (cellValues row)) := by
  obtain ⟨hl, hs⟩ := sized_cellValues (fun v _ hv => sized_cellValue hv) hw.2
  exact ⟨hl ▸ hw.1, hs⟩

theorem encodeRow_ok (hw : RowWf row) : ∃ b, encodeRow row = .ok b := by
  have h : ∃ b, Codec.encode (.array (cellValues row)) = .ok b := by
    refine encode_array_ok fun c hc => ?_
    obtain ⟨v, hv, rfl⟩ := mem_cellValues hc
    exact encode_cellValue (hw.2.wf hv)
  obtain ⟨b, hb⟩ := h
  exact ⟨b, encode_eq_ok.mpr hb⟩

theorem depth_row (row : Row) : depth (.array (cellValues row)) = 2 * nestItems row := by
  rw [depth, depth_cellValues fun v _ => depth_cellValue v]

variable {schema : Schema}

theorem decodeRow_eq_ok {items : List Codec.Value} (h : Codec.decode b = .ok (.array items))
    (hl : items.length = schema.arity) : decodeRow schema b = cellFromItems items := by
  have hd : decodeArray b = .ok items := by
    rw [decodeArray, decode_eq_ok.mpr h]
    rfl
  rw [decodeRow, hd, ok_bind, if_neg (not_not.mpr hl)]

/-- **A row nested at most 63 deep reads back.** -/
theorem decodeRow_encodeRow (hw : RowWf row) (hl : row.length = schema.arity)
    (hn : ∀ v ∈ row, nestDepth v ≤ 63) (hb : encodeRow row = .ok b) : decodeRow schema b = .ok row := by
  have hd : depth (.array (cellValues row)) ≤ Codec.maxDepth := by
    have := nestItems_le.mpr hn
    rw [depth_row, Codec.maxDepth]
    omega
  have hdec := Codec.decode_of_encode (sized_row hw) hd (encode_eq_ok.mp hb)
  have hlen : (canonItems (cellValues row)).length = schema.arity := by
    rw [Codec.canonItems_length, (sized_cellValues (fun v _ hv => sized_cellValue hv) hw.2).1, hl]
  rw [decodeRow_eq_ok hdec hlen]
  exact cellFromItems_canon fun v hv => cellFrom_canon (hw.2.wf hv)

/-- **A row nested deeper is never read back.** -/
theorem decodeRow_ne_ok (schema : Schema) (hw : RowWf row) (hn : ¬ ∀ v ∈ row, nestDepth v ≤ 63)
    (hb : encodeRow row = .ok b) (r : Row) : decodeRow schema b ≠ .ok r := by
  intro h
  have hd : Codec.maxDepth < depth (.array (cellValues row)) := by
    have := mt nestItems_le.mp hn
    rw [depth_row, Codec.maxDepth]
    omega
  obtain ⟨items, hi, -⟩ := of_bind h
  obtain ⟨w, hdec, -⟩ := of_bind hi
  exact Codec.decode_ne_ok (sized_row hw) hd (encode_eq_ok.mp hb) w (decode_eq_ok.mp hdec)

theorem length_of_checkRow (h : schema.checkRow row = .ok ()) : row.length = schema.arity := by
  by_contra hne
  simp [Schema.checkRow, hne] at h

/-- **A row that `checkRow` accepts is read back exactly when no cell nests lists and maps more than
63 deep.** -/
theorem row_roundTrip_iff (schema : Schema) (row : Row) (hw : RowWf row)
    (hc : schema.checkRow row = .ok ()) :
    (∃ b, encodeRow row = .ok b ∧ decodeRow schema b = .ok row) ↔ ∀ v ∈ row, nestDepth v ≤ 63 := by
  obtain ⟨b, hb⟩ := encodeRow_ok hw
  constructor
  · rintro ⟨b', hb', hd⟩
    by_contra hn
    exact decodeRow_ne_ok schema hw hn hb' row hd
  · exact fun hn => ⟨b, hb, decodeRow_encodeRow hw (length_of_checkRow hc) hn hb⟩

/-! ## A row that is stored and cannot be read -/

def taggedSchema : Schema where
  columns := [("id", .int), ("tags", .list)]
  primaryKey := [0]
  columns_ne := by simp
  primaryKey_ne := by simp
  inRange := by simp

/-- `n` lists, one inside the other. -/
def deepList : ℕ → Value
  | 0 => .null
  | n + 1 => .list [deepList n]

theorem wf_deepList : ∀ n, (deepList n).Wf
  | 0 => trivial
  | n + 1 => ⟨by simp, wf_deepList n, trivial⟩

theorem taggedRow_wf (n : ℕ) : RowWf [.int 1, deepList n] :=
  ⟨by simp, trivial, wf_deepList n, trivial⟩

theorem row_roundTrip_shallow : (∃ b, encodeRow [.int 1, deepList 1] = .ok b ∧
      decodeRow taggedSchema b = .ok [.int 1, deepList 1]) ↔
      ∀ v ∈ [.int 1, deepList 1], nestDepth v ≤ 63 :=
  row_roundTrip_iff taggedSchema [.int 1, deepList 1] (taggedRow_wf 1) rfl

/-- The canonical bytes of the row whose second cell is 64 nested lists. -/
def deepBytes : Bytes :=
  0x82 :: 0x82 :: 2 :: 1 :: (List.replicate 64 [0x82, 0x18, 24, 0x81]).flatten ++ [0x81, 0]

set_option maxRecDepth 20000 in
theorem encodeRow_deepList : encodeRow [.int 1, deepList 64] = .ok deepBytes := rfl

set_option maxRecDepth 20000 in
theorem decodeRow_deepBytes : decodeRow taggedSchema deepBytes =
    .error (.corrupt "cbor: nesting deeper than MAX_DEPTH") := rfl

/-- A row of 64 nested lists is accepted and encoded, and the decoder rejects the bytes. -/
theorem deep_row_lost :
    RowWf [.int 1, deepList 64] ∧ taggedSchema.checkRow [.int 1, deepList 64] = .ok () ∧
      encodeRow [.int 1, deepList 64] = .ok deepBytes ∧
      decodeRow taggedSchema deepBytes = .error (.corrupt "cbor: nesting deeper than MAX_DEPTH") :=
  ⟨taggedRow_wf 64, rfl, encodeRow_deepList, decodeRow_deepBytes⟩

end UldrenLoom.Tabular
