import UldrenLoom.Kv.Records
import UldrenLoom.Prolly.Frame

/-!
# A collection stands for a map

The root file, the two trees and the value files of a collection together stand for one `KvMap`, and
every call acts on that map.

* **`kvAnchorFromRoot_ends`**, **`kvGetProlly_ends`**, **`loadOrEmpty_ends`**: what is read is what
  the map holds, if the records can be read and no tree is too high.
-/

set_option linter.unusedSectionVars false

namespace UldrenLoom.Kv

open ByteString Fallible Cbor Tabular Prolly List SortedMap KeyMap
open Vcs (DigestCode)

/-! ## Maps keyed by values -/

namespace KeyMap

variable {α : Type} {m : KeyMap α}

theorem eq_of_map {n : KeyMap α} (h : m.map = n.map) : m = n := by
  cases m
  cases n
  cases h
  rfl

variable {key key' : Value} {a : α}

theorem mem_entries : (key, a) ∈ m.entries ↔ m.map.get (encodeKeyValue key) = some (key, a) := by
  constructor
  · intro h
    obtain ⟨⟨k, e⟩, he, heq⟩ := mem_map.mp h
    subst heq
    have hg := get_eq_some.mpr he
    rw [show encodeKeyValue key = k from m.keyed hg]
    exact hg
  · exact fun h => mem_map.mpr ⟨_, get_eq_some.mp h, rfl⟩

theorem get_set (m : KeyMap α) (key key' : Value) (a : α) : (m.set key a).get key' =
      if encodeKeyValue key = encodeKeyValue key' then some a else m.get key' := by
  rw [get, set, get_insert]
  split_ifs <;> rfl

theorem get_erase (m : KeyMap α) (key key' : Value) :
    (m.erase key).get key' = if encodeKeyValue key = encodeKeyValue key' then none else m.get key' := by
  rw [get, erase, SortedMap.get_erase]
  split_ifs <;> rfl

theorem get_of_key (m : KeyMap α) (h : encodeKeyValue key = encodeKeyValue key') :
    m.get key = m.get key' := by
  rw [get, get, h]

theorem get_eq_some :
    m.get key = some a ↔ ∃ key', encodeKeyValue key' = encodeKeyValue key ∧ (key', a) ∈ m.entries := by
  constructor
  · intro h
    obtain ⟨⟨key', b⟩, he, rfl⟩ := Option.map_eq_some_iff.mp h
    have hk : encodeKeyValue key' = encodeKeyValue key := m.keyed he
    exact ⟨key', hk, mem_entries.mpr (hk ▸ he)⟩
  · rintro ⟨key', hk, he⟩
    rw [get, ← hk, mem_entries.mp he]
    rfl

/-- The value that stands for a key once it is inserted. -/
def keyFor (m : KeyMap α) (key : Value) : Value :=
  ((m.map.get (encodeKeyValue key)).map Prod.fst).getD key

theorem insert_eq_set (m : KeyMap α) (key : Value) (a : α) :
    m.insert key a = m.set (m.keyFor key) a := by
  unfold insert keyFor
  cases m.map.get (encodeKeyValue key) <;> rfl

theorem key_keyFor (m : KeyMap α) (key : Value) :
    encodeKeyValue (m.keyFor key) = encodeKeyValue key := by
  unfold keyFor
  cases h : m.map.get (encodeKeyValue key) with
  | none => rfl
  | some e => exact m.keyed h

theorem get_insert (m : KeyMap α) (key key' : Value) (a : α) : (m.insert key a).get key' =
      if encodeKeyValue key = encodeKeyValue key' then some a else m.get key' := by
  rw [insert_eq_set, get_set, key_keyFor]

theorem insert_of_get_eq_none (h : m.get key = none) (a : α) : m.insert key a = m.set key a := by
  rw [insert_eq_set, keyFor, Option.map_eq_none_iff.mp h]
  rfl

theorem mem_entries_set {b : α} (h : (key', b) ∈ (m.set key a).entries) :
    (key' = key ∧ b = a) ∨ (key', b) ∈ m.entries := by
  have hg := mem_entries.mp h
  rw [set, SortedMap.get_insert] at hg
  split_ifs at hg
  · cases hg
    exact .inl ⟨rfl, rfl⟩
  · exact .inr (mem_entries.mpr hg)

theorem mem_entries_erase {b : α} (h : (key', b) ∈ (m.erase key).entries) : (key', b) ∈ m.entries := by
  have hg := mem_entries.mp h
  rw [erase, SortedMap.get_erase] at hg
  split_ifs at hg
  exact mem_entries.mpr hg

theorem insert_last {acc : KeyMap α} {L : List (Bytes × Value × α)}
    (h : OrdMap.Ascending (acc.map.entries ++ (encodeKeyValue key, key, a) :: L)) :
    acc.get key = none ∧
      (acc.insert key a).map.entries = acc.map.entries ++ [(encodeKeyValue key, key, a)] := by
  have hlt : ∀ q ∈ acc.map.entries, q.1 < encodeKeyValue key := fun q hq =>
    (pairwise_append.mp h).2.2 q hq _ (mem_cons_self ..)
  have hnone : acc.get key = none := by
    rw [get, SortedMap.get, OrdMap.get_eq_none.mpr fun q hq => (hlt q hq).ne]
    rfl
  refine ⟨hnone, ?_⟩
  rw [insert_of_get_eq_none hnone]
  have := OrdMap.insert_append_of_lt hlt (key, a) []
  rwa [append_nil] at this

theorem eq_of_entries {n : KeyMap α} (h : m.map.entries = n.map.entries) : m = n := by
  refine eq_of_map ?_
  cases hm : m.map
  cases hn : n.map
  rw [hm, hn] at h
  obtain rfl := h
  rfl

/-! ### As the entries of a tree -/

variable (f : Value × α → Bytes)

/-- The entries of a tree that holds the map, each written by `f`. -/
def records (m : KeyMap α) : List (Bytes × Bytes) := OrdMap.mapVal f m.map.entries

theorem ascending_records (m : KeyMap α) : OrdMap.Ascending (m.records f) :=
  OrdMap.ascending_mapVal f m.map.ascending

theorem get_records (m : KeyMap α) (k : Bytes) :
    OrdMap.get k (m.records f) = (m.map.get k).map f := OrdMap.get_mapVal f k _

theorem records_set (m : KeyMap α) (key : Value) (a : α) :
    (m.set key a).records f = OrdMap.insert (encodeKeyValue key) (f (key, a)) (m.records f) :=
  (OrdMap.insert_mapVal f _ (key, a) _).symm

theorem records_erase (m : KeyMap α) (key : Value) :
    (m.erase key).records f = OrdMap.erase (encodeKeyValue key) (m.records f) :=
  (OrdMap.erase_mapVal f _ _).symm

theorem records_eq_map (m : KeyMap α) :
    m.records f = m.entries.map fun e => (encodeKeyValue e.1, f e) := by
  rw [records, OrdMap.mapVal, entries, map_map]
  refine map_congr_left fun p hp => ?_
  rw [Function.comp_apply, m.keyed (SortedMap.get_eq_some.mpr hp)]

end KeyMap

theorem kvOrderedKey_eq (key : Value) : kvOrderedKey key = encodeKeyValue key := by
  simp [kvOrderedKey, encodePkValues]

theorem cmp_eq_iff {v w : Value} : v.cmp w = .eq ↔ encodeKeyValue v = encodeKeyValue w := by
  rw [cmp_eq_cmpBytes]
  exact Std.LawfulEqCmp.compare_eq_iff_eq

/-! ## What a collection holds -/

def bytesOf : Result Bytes → Bytes
  | .ok b => b
  | .error _ => []

variable {D : Type} [DigestCode D] [DecidableEq D] [ToString D] {hash : Node D → D} (env : Env D)

def entryRecord (e : Value × Bytes) : Bytes :=
  bytesOf (encodeKvEntry e.1 (env.contentAddress e.2) e.2.length)

def anchorRecord (e : Value × UInt64) : Bytes := bytesOf (encodeKvAnchor e.1 e.2)

/-- A map whose records can be written, and whose live keys have anchors. -/
structure Written (m : KvMap) : Prop where
  entry : ∀ e ∈ m.entries.entries, e.1.Wf ∧
    encodeKvEntry e.1 (env.contentAddress e.2) e.2.length = .ok (entryRecord env e)
  anchor : ∀ e ∈ m.anchors.entries, e.1.Wf ∧ encodeKvAnchor e.1 e.2 = .ok (anchorRecord e)
  live : ∀ key, m.entries.get key ≠ none → m.anchors.get key ≠ none

/-- The collection holds a map below a prolly root. -/
structure Holds (c : Collection hash) (root : KvProllyRoot D) (m : KvMap) : Prop
    extends Written env m where
  file : ∃ b, encodeProllyRoot root = .ok b ∧ c.root = some b
  entries : Represents c.store.readNode root.entries (m.entries.records (entryRecord env))
  anchors : Represents c.store.readNode root.anchors (m.anchors.records anchorRecord)
  values : ∀ e ∈ m.entries.entries, c.values (env.contentAddress e.2) = some e.2

/-- Only nodes and value files were added. -/
structure Grown (c c' : Collection hash) : Prop where
  root_eq : c'.root = c.root
  store_le : c.store ≤ c'.store
  values : ∀ v, c.values (env.contentAddress v) = some v → c'.values (env.contentAddress v) = some v

variable {env}

theorem Grown.refl (c : Collection hash) : Grown env c c := ⟨rfl, le_rfl, fun _ h => h⟩

variable {c : Collection hash}

theorem Grown.trans {c c' c'' : Collection hash} (h : Grown env c c') (h' : Grown env c' c'') :
    Grown env c c'' :=
  ⟨h'.root_eq.trans h.root_eq, h.store_le.trans h'.store_le, fun v hv => h'.values v (h.values v hv)⟩

variable {root : KvProllyRoot D} {m : KvMap}

theorem Holds.grown {c' : Collection hash} (h : Holds env c root m) (hg : Grown env c c') :
    Holds env c' root m where
  toWritten := h.toWritten
  file := by
    obtain ⟨b, hb, hr⟩ := h.file
    exact ⟨b, hb, hg.root_eq.trans hr⟩
  entries := h.entries.mono hg.store_le
  anchors := h.anchors.mono hg.store_le
  values e he := hg.values _ (h.values e he)

theorem Holds.readProllyRoot {c : Collection hash} {root : KvProllyRoot D} {m : KvMap}
    (h : Holds env c root m) : readProllyRoot c = .ok (some root) := by
  obtain ⟨b, hb, hr⟩ := h.file
  exact readProllyRoot_encode hb hr

/-! ## Reading -/

def AnchorReadable (m : KvMap) (key : Value) : Prop :=
  m.anchors.get key = none ∨ Shallow key ∧ m.anchor key ≠ 0

def EntryReadable (m : KvMap) (key : Value) : Prop := m.entries.get key = none ∨ Shallow key

theorem shallow_of_key {v w : Value} (h : encodeKeyValue v = encodeKeyValue w) :
    Shallow v ↔ Shallow w := by
  rw [Shallow, Shallow, nestDepth_of_key v w h]

variable {M : List (Bytes × Bytes)}

theorem lookup_ends {root : Option D} (h : Represents c.store.readNode root M) (key : Value) :
    Ends (· = OrdMap.get (encodeKeyValue key) M) (fun e => Tall e ∧ low c.store root = false)
      (lookup c root key) := by
  cases root with
  | none =>
    obtain rfl : M = [] := h
    rfl
  | some r =>
    rw [lookup, kvOrderedKey_eq]
    exact get_ends h _

theorem low_of_lookup {root : Option D} (h : Represents c.store.readNode root M) {key : Value}
    (hk : OrdMap.get (encodeKeyValue key) M ≠ none) {v : Option Bytes}
    (hv : lookup c root key = .ok v) : low c.store root = true := by
  cases root with
  | none => rfl
  | some r =>
    rw [lookup, kvOrderedKey_eq] at hv
    exact low_of_get h hk hv

section Read

variable {c : Collection hash} {root : KvProllyRoot D} {m : KvMap} (h : Holds env c root m)

include h

/-- **The anchor below the root is that of the map.** -/
theorem kvAnchorFromRoot_ends (key : Value) :
    Ends (fun a => a = m.anchor key ∧ AnchorReadable m key)
      (fun e => Tall e ∧ low c.store root.anchors = false ∨ ¬ AnchorReadable m key)
      (kvAnchorFromRoot c root key) := by
  refine ((lookup_ends h.anchors key).imp (fun _ => id) fun _ => .inl).bind fun r hr => ?_
  subst hr
  rw [get_records]
  cases hg : m.anchors.map.get (encodeKeyValue key) with
  | none =>
    have hn : m.anchors.get key = none := by rw [KeyMap.get, hg]; rfl
    exact ⟨by rw [KvMap.anchor, hn]; rfl, .inl hn⟩
  | some e =>
    obtain ⟨k, a⟩ := e
    have hk : encodeKeyValue k = encodeKeyValue key := m.anchors.keyed hg
    have hget : m.anchors.get key = some a := by rw [KeyMap.get, hg]; rfl
    have hanchor : m.anchor key = a := by rw [KvMap.anchor, hget]; rfl
    obtain ⟨hw, hrec⟩ := h.anchor (k, a) (mem_entries.mpr (hk ▸ hg))
    simp only [AnchorReadable, hget, hanchor, reduceCtorEq, false_or, ← shallow_of_key hk]
    change Ends _ _ (decodeKvAnchor (anchorRecord (k, a)) >>= _)
    by_cases hs : Shallow k
    · rw [decodeKvAnchor_eq hw hs hrec]
      split_ifs with ha
      · exact .inr fun hr => hr.2 ha
      · rw [ok_bind]
        rw [if_neg (not_not.mpr (cmp_eq_iff.mpr hk))]
        exact ⟨rfl, hs, ha⟩
    · obtain ⟨e, he⟩ := decodeKvAnchor_deep hs hrec
      rw [he]
      exact .inr fun hr => hs hr.1

theorem readValue_holds {e : Value × Bytes} (he : e ∈ m.entries.entries) :
    readValue env c (env.contentAddress e.2) (UInt64.ofNat e.2.length) = .ok e.2 := by
  rw [readValue, h.values e he]
  simp

/-- **The value below the root is that of the map.** -/
theorem kvGetProlly_ends (key : Value) : Ends (fun r => r = m.entries.get key ∧ EntryReadable m key)
      (fun e => Tall e ∧ low c.store root.entries = false ∨ ¬ EntryReadable m key)
      (kvGetProlly env c root key) := by
  refine ((lookup_ends h.entries key).imp (fun _ => id) fun _ => .inl).bind fun r hr => ?_
  subst hr
  rw [get_records]
  cases hg : m.entries.map.get (encodeKeyValue key) with
  | none =>
    have hn : m.entries.get key = none := by rw [KeyMap.get, hg]; rfl
    exact ⟨hn.symm, .inl hn⟩
  | some e =>
    obtain ⟨k, v⟩ := e
    have hk : encodeKeyValue k = encodeKeyValue key := m.entries.keyed hg
    have hget : m.entries.get key = some v := by rw [KeyMap.get, hg]; rfl
    have hmem : (k, v) ∈ m.entries.entries := mem_entries.mpr (hk ▸ hg)
    obtain ⟨hw, hrec⟩ := h.entry (k, v) hmem
    simp only [EntryReadable, hget, reduceCtorEq, false_or, ← shallow_of_key hk]
    change Ends _ _ (decodeKvEntry (entryRecord env (k, v)) >>= _)
    by_cases hs : Shallow k
    · rw [decodeKvEntry_encode hw hs hrec, ok_bind]
      rw [if_neg (not_not.mpr (cmp_eq_iff.mpr hk)), show readValue env c (env.contentAddress v)
        (UInt64.ofNat v.length) = .ok v from readValue_holds h hmem]
      exact ⟨rfl, hs⟩
    · obtain ⟨e, he⟩ := decodeKvEntry_deep hs hrec
      rw [he]
      exact .inr hs

theorem kvGet_ends (key : Value) : Ends (fun r => r = m.entries.get key ∧ EntryReadable m key)
      (fun e => Tall e ∧ low c.store root.entries = false ∨ ¬ EntryReadable m key)
      (kvGet env c key) := by
  rw [kvGet, h.readProllyRoot]
  exact kvGetProlly_ends h key

end Read

/-! ### The whole map -/

section Tree

variable {α β : Type} {kind : String} {decode : Bytes → Result (Value × β)}
  {value : Value → β → Result α}

variable (kind) in
theorem treeMap_append {f : Value × α → Bytes} {g : Value × α → β} (L : List (Bytes × Value × α))
    (acc : KeyMap α) (previous : Option Bytes) (hasc : OrdMap.Ascending (acc.map.entries ++ L))
    (hkey : ∀ p ∈ L, encodeKeyValue p.2.1 = p.1) (hprev : ∀ q ∈ previous, ∀ p ∈ L, q < p.1)
    (hdec : ∀ p ∈ L, decode (f p.2) = .ok (p.2.1, g p.2) ∧ value p.2.1 (g p.2) = .ok p.2.2) :
    ∃ r, treeMap kind decode value previous (OrdMap.mapVal f L) acc = .ok r ∧
      r.map.entries = acc.map.entries ++ L := by
  induction L generalizing acc previous with
  | nil => exact ⟨acc, rfl, (append_nil _).symm⟩
  | cons p L ih =>
    obtain ⟨k, key, a⟩ := p
    have hk : encodeKeyValue key = k := hkey (k, key, a) (by simp)
    obtain ⟨hd, hv⟩ := hdec (k, key, a) (by simp)
    subst hk
    obtain ⟨hnone, hset⟩ := insert_last hasc
    have hsorted : previous.any (fun p => decide (encodeKeyValue key ≤ p)) = false := by
      rw [Option.any_eq_false]
      exact fun q hq => by simpa using hprev q hq (encodeKeyValue key, key, a) (by simp)
    obtain ⟨r, hr, he⟩ := ih (acc.insert key a) (some (encodeKeyValue key))
      (by rwa [hset, append_assoc]) (fun p hp => hkey p (by simp [hp]))
      (fun q hq p hp => by
        obtain rfl := Option.mem_some_iff.mp hq
        exact (pairwise_cons.mp (pairwise_append.mp hasc).2.1).1 p hp)
      (fun p hp => hdec p (by simp [hp]))
    refine ⟨r, ?_, by rw [he, hset, append_assoc]; rfl⟩
    rw [OrdMap.mapVal_cons, treeMap, hsorted, if_neg Bool.false_ne_true, hd, ok_bind]
    dsimp only
    rw [kvOrderedKey_eq, if_neg (not_not.mpr rfl), hv, ok_bind, hnone]
    exact hr

variable (kind) in
theorem treeMap_records {f : Value × α → Bytes} {g : Value × α → β} {m : KeyMap α}
    (hdec : ∀ e ∈ m.entries, decode (f e) = .ok (e.1, g e) ∧ value e.1 (g e) = .ok e.2) :
    treeMap kind decode value none (m.records f) KeyMap.empty = .ok m := by
  obtain ⟨r, hr, he⟩ := treeMap_append kind m.map.entries KeyMap.empty none m.map.ascending
    (fun p hp => m.keyed (get_eq_some.mpr hp)) (by simp)
    (fun p hp => hdec p.2 (mem_map_of_mem hp))
  have hm : r = m := eq_of_entries he
  rw [← hm]
  rwa [hm] at hr ⊢

theorem decode_of_treeMap {es : List (Bytes × Bytes)} {previous : Option Bytes} {acc r : KeyMap α}
    (h : treeMap kind decode value previous es acc = .ok r) :
    ∀ p ∈ es, ∃ x, decode p.2 = .ok x := by
  induction es generalizing previous acc with
  | nil => simp
  | cons p es ih =>
    obtain ⟨k, record⟩ := p
    obtain ⟨-, h⟩ := ite_error_eq_ok.mp h
    obtain ⟨⟨key, b⟩, hd, h⟩ := of_bind h
    obtain ⟨-, h⟩ := ite_error_eq_ok.mp h
    obtain ⟨a, -, h⟩ := of_bind h
    obtain ⟨-, h⟩ := ite_error_eq_ok.mp h
    exact forall_mem_cons.mpr ⟨⟨_, hd⟩, ih h⟩

end Tree

def AllReadable (m : KvMap) : Prop := ∀ e ∈ m.anchors.entries, Shallow e.1 ∧ e.2 ≠ 0

theorem entriesOf_ends {root : Option D} (h : Represents c.store.readNode root M) :
    Ends (· = M) Tall (entriesOf c.store.readNode root) := by
  cases root with
  | none =>
    obtain rfl : M = [] := h
    rfl
  | some r => exact entries_ends h

/-- **The whole map is read back**, if every anchor can be read and no tree is too high. -/
theorem loadOrEmpty_ends (h : Holds env c root m) :
    Ends (fun r => r = m ∧ AllReadable m) (fun e => Tall e ∨ ¬ AllReadable m) (loadOrEmpty env c) := by
  obtain ⟨b, hb, hroot⟩ := h.file
  rw [loadOrEmpty, hroot]
  dsimp only
  rw [decodeKvStorage, decodeArray_root hb, ok_bind, if_pos (isProllyRoot_items root),
    decodeProllyRootAsMap, prollyRootFields_items, ok_bind]
  refine ((entriesOf_ends h.anchors).imp (fun _ => id) fun _ => .inl).bind fun es hes => ?_
  subst hes
  by_cases hr : AllReadable m
  · have hanchors : treeMap "anchor" decodeKvAnchor (fun _ a => .ok a) none
        (m.anchors.records anchorRecord) KeyMap.empty = .ok m.anchors :=
      treeMap_records _ (g := Prod.snd) fun e he => by
        obtain ⟨hw, hrec⟩ := h.anchor e he
        exact ⟨decodeKvAnchor_encode hw (hr e he).1 (hr e he).2 hrec, rfl⟩
    rw [hanchors, ok_bind]
    refine ((entriesOf_ends h.entries).imp (fun _ => id) fun _ => .inl).bind fun es hes => ?_
    subst hes
    rw [treeMap_records _ (f := entryRecord env) (g := fun e => (env.contentAddress e.2,
      UInt64.ofNat e.2.length)) (m := m.entries), ok_bind]
    · exact ⟨rfl, hr⟩
    · intro e he
      obtain ⟨hw, hrec⟩ := h.entry e he
      have hget : m.entries.get e.1 = some e.2 := get_eq_some.mpr ⟨e.1, rfl, he⟩
      obtain ⟨a, ha⟩ := Option.ne_none_iff_exists'.mp (h.live e.1 (by simp [hget]))
      obtain ⟨k, hk, hmem⟩ := get_eq_some.mp ha
      have hs : Shallow e.1 := (shallow_of_key hk).mp (hr _ hmem).1
      refine ⟨decodeKvEntry_encode hw hs hrec, ?_⟩
      simp only [ha, readValue_holds h he]
      rfl
  · cases hx : treeMap "anchor" decodeKvAnchor (fun _ a => .ok a) none
        (m.anchors.records anchorRecord) KeyMap.empty with
    | error e => exact .inr hr
    | ok r =>
      refine absurd (fun e he => ?_) hr
      obtain ⟨hw, hrec⟩ := h.anchor e he
      obtain ⟨x, hx⟩ := decode_of_treeMap hx (encodeKeyValue e.1, anchorRecord e) (by
        rw [records_eq_map]
        exact mem_map_of_mem he)
      by_cases hs : Shallow e.1
      · refine ⟨hs, fun h0 => ?_⟩
        rw [decodeKvAnchor_eq hw hs hrec, if_pos h0] at hx
        cases hx
      · obtain ⟨e', he'⟩ := decodeKvAnchor_deep hs hrec
        rw [he'] at hx
        cases hx

end UldrenLoom.Kv
