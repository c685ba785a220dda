import UldrenLoom.Kv.Tokens
import UldrenLoom.Lib.Utf8
import UldrenLoom.Prolly.Cursor

/-!
# Ranges of keys

Four readers of the entries with `lo ≤ key < hi`: `range` of a map and of an ephemeral map, and
`kvRange` of a collection, by a cursor below a prolly root or through the whole map.

* **`ranges_iff`**: all four forms return the entries of the range exactly if it is not reversed, or the maps
  were never filled, and its keys are not nested too deep.

A panic is `none`, as is a cursor that ran out of fuel. The limits and the write-behind buffer of an
ephemeral map are left out.
-/

namespace UldrenLoom.Kv

open ByteString Fallible Cbor Tabular Prolly List
open OrdMap (Ascending mapVal)
open Vcs (DigestCode)

/-! ## The ranges -/

namespace KeyMap

variable {α : Type}

def inRange (lo hi key : Value) : Bool := lo.cmp key ≠ .gt ∧ key.cmp hi = .lt

/-- The entries with `lo ≤ key < hi`, in key order. -/
def between (m : KeyMap α) (lo hi : Value) : List (Value × α) :=
  m.entries.filter fun e => inRange lo hi e.1

/-- Whether a map has a root node. One that was never filled has none; one that was emptied keeps
it. -/
structure Root (m : KeyMap α) where
  rooted : Bool
  filled : m.entries ≠ [] → rooted = true

/-- The root of a map that was filled by insertions only. -/
def Root.fresh (m : KeyMap α) : m.Root := ⟨!m.entries.isEmpty, by simp⟩

/-- `BTreeMap::range(lo..hi)`, which looks at its bounds only below a root. -/
def range (m : KeyMap α) (root : m.Root) (lo hi : Value) : Option (List (Value × α)) :=
  if root.rooted ∧ lo.cmp hi = .gt then none else some (m.between lo hi)

/-- `BTreeMap::retain`. -/
def retain (m : KeyMap α) (keep : α → Bool) : KeyMap α where
  map := ⟨m.map.entries.filter fun p => keep p.2.2, m.map.ascending.filter _⟩
  keyed h := m.keyed (SortedMap.get_eq_some.mpr (List.mem_of_mem_filter (SortedMap.get_eq_some.mp h)))

def Root.retain {m : KeyMap α} (root : m.Root) (keep : α → Bool) : (m.retain keep).Root where
  rooted := root.rooted
  filled h := root.filled fun hnil => h (by
    rw [entries, map_eq_nil_iff] at hnil ⊢
    exact filter_eq_nil_iff.mpr (by simp [hnil]))

end KeyMap

namespace KvMap

def range (m : KvMap) (root : m.entries.Root) (lo hi : Value) : Option (List (Value × Bytes)) :=
  m.entries.range root lo hi

def put (m : KvMap) (key : Value) (value : Bytes) : KvMap where
  anchors := if (m.anchors.get key).isSome then m.anchors else m.anchors.insert key 1
  entries := m.entries.insert key value

end KvMap

structure EphemeralEntry where
  value : Bytes
  expiresAtMs : Option UInt64
  idleTtlMs : Option UInt64
  lastAccessMs : UInt64
  size : ℕ

/-- Past its deadline, or idle for too long; a deadline that overflows has passed. -/
def entryExpired (entry : EphemeralEntry) (nowMs : UInt64) : Bool :=
  entry.expiresAtMs.any (· ≤ nowMs) || entry.idleTtlMs.any fun idle =>
    2 ^ 64 ≤ entry.lastAccessMs.toNat + idle.toNat ||
      entry.lastAccessMs.toNat + idle.toNat ≤ nowMs.toNat

structure EphemeralKvMap where
  entries : KeyMap EphemeralEntry
  root : entries.Root
  bytes : ℕ

namespace EphemeralKvMap

def expire (m : EphemeralKvMap) (nowMs : UInt64) : EphemeralKvMap where
  entries := m.entries.retain fun e => !entryExpired e nowMs
  root := m.root.retain _
  bytes := m.bytes - ((m.entries.entries.filter fun e => entryExpired e.2 nowMs).map (·.2.size)).sum

def range (m : EphemeralKvMap) (lo hi : Value) (nowMs : UInt64) :
    Option (List (Value × Bytes) × EphemeralKvMap) := do
  let m := m.expire nowMs
  let es ← m.entries.range m.root lo hi
  return (es.map fun e => (e.1, e.2.value), m)

/-- The entries of the range that have not expired. -/
def between (m : EphemeralKvMap) (lo hi : Value) (nowMs : UInt64) : List (Value × Bytes) :=
  ((m.entries.between lo hi).filter fun e => !entryExpired e.2 nowMs).map fun e => (e.1, e.2.value)

end EphemeralKvMap

variable {D : Type} [DigestCode D] [DecidableEq D] [ToString D] {hash : Node D → D} (env : Env D)

/-- The key and value of an entry of the tree. -/
def rangeEntry (c : Collection hash) (e : Bytes × Bytes) : Result (Value × Bytes) := do
  let (key, digest, len) ← decodeKvEntry e.2
  if e.1 ≠ kvOrderedKey key then .error (.corrupt "KV entry key codec mismatch")
  .ok (key, ← readValue env c digest len)

/-- The loop over the cursor. -/
def rangeLoop (c : Collection hash) :
    (fuel : ℕ) → Cursor D → KvMap → Option (Result KvMap)
  | 0, _, _ => none
  | fuel + 1, cur, out =>
    match turn c.store.readNode cur with
    | .error e => some (.error e)
    | .ok none => some (.ok out)
    | .ok (some (none, cur)) => rangeLoop c fuel cur out
    | .ok (some (some e, cur)) =>
      match rangeEntry env c e with
      | .error e => some (.error e)
      | .ok (key, value) => rangeLoop c fuel cur (out.put key value)

def kvRange (c : Collection hash) (lo hi : Value) (fuel : ℕ) : Option (Result KvMap) :=
  match readProllyRoot c with
  | .error e => some (.error e)
  | .ok (some root) =>
    match root.entries with
    | none => some (.ok KvMap.new)
    | some entriesRoot =>
      match openRange c.store.readNode entriesRoot (some (kvOrderedKey lo))
        (some (kvOrderedKey hi)) with
      | .error e => some (.error e)
      | .ok cur => rangeLoop env c fuel cur KvMap.new
  | .ok none =>
    match loadOrEmpty env c with
    | .error e => some (.error e)
    | .ok map => (map.range (.fresh _) lo hi).map fun es =>
        .ok (es.foldl (fun out e => out.put e.1 e.2) KvMap.new)

/-- The call returns, and its map has the entries. -/
def Gives (x : ℕ → Option (Result KvMap)) (es : List (Value × Bytes)) : Prop :=
  ∃ out N, out.entries.entries = es ∧ ∀ fuel, N ≤ fuel → x fuel = some (.ok out)

/-! ## Keys and their bytes -/

namespace KeyMap

variable {α : Type}

theorem inRange_eq (lo hi key : Value) :
    inRange lo hi key = (!before (some (encodeKeyValue lo)) (encodeKeyValue key) &&
      !past (some (encodeKeyValue hi)) (encodeKeyValue key)) := by
  have hgt : lo.cmp key = .gt ↔ encodeKeyValue key < encodeKeyValue lo := by
    rw [lt_iff_compareLex, cmp_eq_cmpBytes, Std.OrientedCmp.gt_iff_lt]
  have hlt : key.cmp hi = .lt ↔ ¬ encodeKeyValue hi ≤ encodeKeyValue key := by
    rw [not_le, lt_iff_compareLex, cmp_eq_cmpBytes]
  rw [Bool.eq_iff_iff]
  simp [inRange, before, past, hgt, hlt]

/-- The map's own entries of the range, with their key bytes. -/
def keyedBetween (m : KeyMap α) (lo hi : Value) : List (Bytes × Value × α) :=
  m.map.entries.filter fun p => inRange lo hi p.2.1

theorem between_eq (m : KeyMap α) (lo hi : Value) :
    m.between lo hi = (m.keyedBetween lo hi).map Prod.snd := by
  rw [between, entries, filter_map]
  rfl

theorem filter_records (m : KeyMap α) (f : Value × α → Bytes) (lo hi : Value) :
    ((m.records f).filter fun e => !before (some (kvOrderedKey lo)) e.1 &&
      !past (some (kvOrderedKey hi)) e.1) = mapVal f (m.keyedBetween lo hi) := by
  rw [records, mapVal, filter_map, keyedBetween, mapVal]
  congr 1
  refine filter_congr fun p hp => ?_
  rw [inRange_eq, m.keyed (SortedMap.get_eq_some.mpr hp), kvOrderedKey_eq, kvOrderedKey_eq]
  rfl

end KeyMap

theorem entries_putAll {L : List (Bytes × Value × Bytes)} {acc : KvMap}
    (hkey : ∀ p ∈ L, encodeKeyValue p.2.1 = p.1) (hasc : Ascending (acc.entries.map.entries ++ L)) :
    (L.foldl (fun out p => out.put p.2.1 p.2.2) acc).entries.map.entries =
      acc.entries.map.entries ++ L := by
  induction L generalizing acc with
  | nil => exact (append_nil _).symm
  | cons p L ih =>
    obtain ⟨k, key, value⟩ := p
    obtain rfl : encodeKeyValue key = k := hkey _ (mem_cons_self ..)
    have hput := (KeyMap.insert_last hasc).2
    rw [foldl_cons, ih (fun p hp => hkey p (mem_cons_of_mem _ hp))]
    · change (acc.entries.insert key value).map.entries ++ L = _
      rw [hput, append_assoc, singleton_append]
    · change Ascending ((acc.entries.insert key value).map.entries ++ L)
      rwa [hput, append_assoc, singleton_append]

/-- The map of the entries of a range. -/
def subMap (m : KvMap) (lo hi : Value) : KvMap :=
  (m.entries.keyedBetween lo hi).foldl (fun out p => out.put p.2.1 p.2.2) KvMap.new

theorem entries_subMap (m : KvMap) (lo hi : Value) :
    (subMap m lo hi).entries.entries = m.entries.between lo hi := by
  rw [KeyMap.entries, subMap, entries_putAll, KeyMap.between_eq]
  · rfl
  · exact fun p hp =>
      m.entries.keyed (SortedMap.get_eq_some.mpr (mem_of_mem_filter hp))
  · exact m.entries.map.ascending.filter _

/-! ## The collection's range -/

variable {env} {c : Collection hash} {root : KvProllyRoot D} {m : KvMap} {lo hi : Value}

theorem rangeLoop_of_drain {fuel : ℕ} {cur : Cursor D} {L : List (Bytes × Bytes)}
    (h : drain c.store.readNode fuel cur = some (.ok L)) (out : KvMap) :
    rangeLoop env c fuel cur out = some (L.foldlM
      (fun out e => rangeEntry env c e >>= fun kv => .ok (out.put kv.1 kv.2)) out) := by
  induction fuel generalizing cur L out with
  | zero => cases h
  | succ fuel ih =>
    rw [drain] at h
    rw [rangeLoop]
    generalize turn c.store.readNode cur = step at h ⊢
    rcases step with err | _ | ⟨e, cur⟩
    · cases h
    · obtain rfl : [] = L := Except.ok.inj (Option.some.inj h)
      rfl
    · obtain ⟨_ | L', hr, hmap⟩ := Option.map_eq_some_iff.mp h
      · cases hmap
      obtain rfl : e.toList ++ L' = L := Except.ok.inj hmap
      cases e with
      | none => exact ih hr out
      | some e =>
        change _ = some (List.foldlM _ out (e :: L'))
        rw [foldlM_cons]
        dsimp only
        cases rangeEntry env c e with
        | error err => rfl
        | ok kv => exact ih hr _

section Prolly

variable (h : Holds env c root m)

include h

theorem rangeEntry_eq {p : Bytes × Value × Bytes} (hp : p ∈ m.entries.keyedBetween lo hi)
    (hs : Shallow p.2.1) : rangeEntry env c (p.1, entryRecord env p.2) = .ok p.2 := by
  have hget := SortedMap.get_eq_some.mpr (mem_of_mem_filter hp)
  have hk : encodeKeyValue p.2.1 = p.1 := m.entries.keyed hget
  have hmem : p.2 ∈ m.entries.entries := mem_map_of_mem (mem_of_mem_filter hp)
  obtain ⟨hw, hrec⟩ := h.entry p.2 hmem
  rw [rangeEntry, decodeKvEntry_encode hw hs hrec, ok_bind]
  dsimp only
  rw [if_neg (not_not.mpr (by rw [kvOrderedKey_eq, hk])), readValue_holds h hmem]
  rfl

theorem rangeEntry_deep {p : Bytes × Value × Bytes} (hp : p ∈ m.entries.keyedBetween lo hi)
    (hs : ¬ Shallow p.2.1) : ∃ e, rangeEntry env c (p.1, entryRecord env p.2) = .error e := by
  obtain ⟨-, hrec⟩ := h.entry p.2 (mem_map_of_mem (mem_of_mem_filter hp))
  obtain ⟨e, he⟩ := decodeKvEntry_deep hs hrec
  exact ⟨e, by rw [rangeEntry, he]; rfl⟩

theorem kvRange_prolly (lo hi : Value) (hn : ∀ d, root.entries = some d → ∃ n < maxDepth * maxDepth,
      Searches c.store.readNode n d (m.entries.records (entryRecord env))) :
    ∃ N, ∀ fuel, N ≤ fuel → kvRange env c lo hi fuel =
      some ((m.entries.keyedBetween lo hi).foldlM (fun out p =>
        rangeEntry env c (p.1, entryRecord env p.2) >>= fun kv => .ok (out.put kv.1 kv.2))
        KvMap.new) := by
  cases hr : root.entries with
  | none =>
    have hempty : mapVal (entryRecord env) m.entries.map.entries = [] := by
      have := h.entries
      rwa [hr] at this
    refine ⟨0, fun fuel _ => ?_⟩
    rw [kvRange, h.readProllyRoot, KeyMap.keyedBetween, map_eq_nil_iff.mp hempty]
    dsimp only
    rw [hr]
    rfl
  | some d =>
    obtain ⟨n, hlt, hsearch⟩ := hn d hr
    obtain ⟨cur, hcur, N, hN⟩ := drains_openRange hsearch hlt (some (kvOrderedKey lo))
      (some (kvOrderedKey hi))
    refine ⟨N, fun fuel hfuel => ?_⟩
    rw [kvRange, h.readProllyRoot]
    dsimp only
    rw [hr]
    dsimp only
    rw [hcur]
    dsimp only
    rw [rangeLoop_of_drain (hN fuel hfuel), KeyMap.filter_records, mapVal, foldlM_map]

/-- **The range below a prolly root.** -/
theorem kvRange_prolly_iff (hn : ∀ d, root.entries = some d → ∃ n < maxDepth * maxDepth,
      Searches c.store.readNode n d (m.entries.records (entryRecord env))) :
    Gives (kvRange env c lo hi) (m.entries.between lo hi) ↔
      ∀ e ∈ m.entries.between lo hi, Shallow e.1 := by
  obtain ⟨N, hN⟩ := kvRange_prolly h lo hi hn
  constructor
  · rintro ⟨out, N', -, hout⟩ e he
    rw [KeyMap.between_eq] at he
    obtain ⟨p, hp, rfl⟩ := mem_map.mp he
    have hrun := (hN _ (le_max_left N N')).symm.trans (hout _ (le_max_right N N'))
    obtain ⟨b, b', hb⟩ := foldlM_ok_mem (Option.some.inj hrun) hp
    by_contra hs
    obtain ⟨e, he⟩ := rangeEntry_deep h hp hs
    rw [he] at hb
    cases hb
  · intro hs
    refine ⟨subMap m lo hi, N, entries_subMap m lo hi, fun fuel hfuel => ?_⟩
    rw [hN fuel hfuel, foldlM_of_ok fun p hp => rangeEntry_eq h hp (hs p.2 ?_)]
    · rfl
    · rw [KeyMap.between_eq]
      exact mem_map_of_mem hp

end Prolly

theorem kvRange_legacy (hroot : readProllyRoot c = .ok none) (hload : loadOrEmpty env c = .ok m)
    (fuel : ℕ) : kvRange env c lo hi fuel =
      if m.entries.entries ≠ [] ∧ lo.cmp hi = .gt then none else some (.ok (subMap m lo hi)) := by
  have hrooted : (KeyMap.Root.fresh m.entries).rooted = true ↔ m.entries.entries ≠ [] := by
    simp [KeyMap.Root.fresh]
  rw [kvRange, hroot]
  rw [hload]
  dsimp only
  rw [KvMap.range, KeyMap.range]
  simp only [hrooted]
  split_ifs
  · rfl
  · rw [Option.map_some, KeyMap.between_eq, foldl_map, subMap]

/-- **The range through the whole map.** -/
theorem kvRange_legacy_iff (hroot : readProllyRoot c = .ok none) (hload : loadOrEmpty env c = .ok m) :
    Gives (kvRange env c lo hi) (m.entries.between lo hi) ↔
      (lo.cmp hi = .gt → m.entries.entries = []) := by
  constructor
  · rintro ⟨out, N, -, hout⟩ hgt
    have := hout N le_rfl
    rw [kvRange_legacy hroot hload] at this
    split_ifs at this with hp
    exact not_not.mp fun hne => hp ⟨hne, hgt⟩
  · intro hle
    refine ⟨_, 0, entries_subMap m lo hi, fun fuel _ => ?_⟩
    rw [kvRange_legacy hroot hload, if_neg fun hp => hp.1 (hle hp.2)]

theorem EphemeralKvMap.range_eq (cache : EphemeralKvMap) (lo hi : Value) (nowMs : UInt64) :
    cache.range lo hi nowMs = if cache.root.rooted ∧ lo.cmp hi = .gt then none
      else some (cache.between lo hi nowMs, cache.expire nowMs) := by
  have hlive : (cache.expire nowMs).entries.between lo hi =
      (cache.entries.between lo hi).filter fun e => !entryExpired e.2 nowMs := by
    rw [KeyMap.between, KeyMap.between, filter_comm, KeyMap.entries, KeyMap.entries]
    congr 1
    rw [filter_map]
    rfl
  rw [EphemeralKvMap.range, KeyMap.range, hlive,
    show (cache.expire nowMs).root.rooted = cache.root.rooted from rfl]
  split_ifs
  · rfl
  · rfl

/-! ## All four -/

/-- **All four return the entries of the range**, exactly if it is not reversed, or none of the maps was
ever filled, and its keys can be decoded. -/
theorem ranges_iff {c' : Collection hash} {m' : KvMap} (h : Holds env c root m)
    (hn : ∀ d, root.entries = some d → ∃ n < maxDepth * maxDepth,
      Searches c.store.readNode n d (m.entries.records (entryRecord env)))
    (hroot : readProllyRoot c' = .ok none) (hload : loadOrEmpty env c' = .ok m')
    (top : m.entries.Root) (cache : EphemeralKvMap) (nowMs : UInt64) (lo hi : Value) :
    (Gives (kvRange env c lo hi) (m.entries.between lo hi) ∧
      Gives (kvRange env c' lo hi) (m'.entries.between lo hi) ∧
      m.range top lo hi = some (m.entries.between lo hi) ∧
      (cache.range lo hi nowMs).map Prod.fst = some (cache.between lo hi nowMs)) ↔
    (lo.cmp hi = .gt →
      m'.entries.entries = [] ∧ top.rooted = false ∧ cache.root.rooted = false) ∧
    ∀ e ∈ m.entries.between lo hi, Shallow e.1 := by
  have hrange {α : Type} {rooted : Bool} {a : α} :
      (if rooted ∧ lo.cmp hi = .gt then none else some a) = some a ↔
        (lo.cmp hi = .gt → rooted = false) := by
    split_ifs with hp
    · simp [hp]
    · exact iff_of_true rfl fun hgt => Bool.eq_false_iff.mpr fun hr => hp ⟨hr, hgt⟩
  have hcache : (cache.range lo hi nowMs).map Prod.fst = some (cache.between lo hi nowMs) ↔
      (lo.cmp hi = .gt → cache.root.rooted = false) := by
    rw [EphemeralKvMap.range_eq, apply_ite (Option.map Prod.fst)]
    exact hrange
  rw [kvRange_prolly_iff h hn, kvRange_legacy_iff hroot hload, KvMap.range, KeyMap.range, hrange,
    hcache, and_comm]
  simp only [imp_and]

/-! ## An empty collection and a cached entry -/

def emptied : Collection nodeHash :=
  { absent with root := some (bytesOf (encodeProllyRoot (D := Vcs.FreeDigest) ⟨none, none⟩)) }

theorem emptied_holds : Holds sampleEnv emptied ⟨none, none⟩ KvMap.new where
  entry _ he := absurd he not_mem_nil
  anchor _ he := absurd he not_mem_nil
  live _ h := absurd rfl h
  file := ⟨_, by decide +kernel, rfl⟩
  entries := rfl
  anchors := rfl
  values _ he := absurd he not_mem_nil

def cached : EphemeralKvMap :=
  ⟨KeyMap.empty.insert (.int 1) ⟨[7], none, some 5, 3, 66⟩, .fresh _, 66⟩

/-- The bytes of a map with the keys 1 and 2, and the collection that has them. -/
def plainBytes : Bytes := [130, 130, 130, 2, 1, 64, 130, 130, 2, 2, 64]

def legacy : Collection nodeHash := { absent with root := some plainBytes }

theorem legacy_load : ∃ m : KvMap, readProllyRoot legacy = .ok none ∧
    loadOrEmpty sampleEnv legacy = .ok m ∧ m.entries.entries.length = 2 ∧
    (m.entries.between (.int 1) (.int 2)).length = 1 := by
  have hload : (loadOrEmpty sampleEnv legacy).toOption.map (fun m => (m.entries.entries.length,
      (m.entries.between (.int 1) (.int 2)).length)) = some (2, 1) := by decide +kernel
  have hroot : (readProllyRoot legacy).toOption.map Option.isNone = some true := by decide +kernel
  rcases hm : loadOrEmpty sampleEnv legacy with e | m
  · rw [hm] at hload
    cases hload
  · rw [hm] at hload
    rcases hr : readProllyRoot legacy with e | _ | root
    · rw [hr] at hroot
      cases hroot
    · exact ⟨m, rfl, rfl, Prod.ext_iff.mp (Option.some.inj hload)⟩
    · rw [hr] at hroot
      cases hroot

theorem ranges_cached : ∃ m : KvMap, (m.entries.between (.int 1) (.int 2)).length = 1 ∧
    Gives (kvRange sampleEnv emptied (.int 1) (.int 2)) [] ∧
    Gives (kvRange sampleEnv legacy (.int 1) (.int 2)) (m.entries.between (.int 1) (.int 2)) ∧
    (cached.range (.int 1) (.int 2) 7).map Prod.fst = some [(.int 1, [7])] := by
  obtain ⟨m, hroot, hload, -, hm⟩ := legacy_load
  obtain ⟨h1, h2, -, h4⟩ := (ranges_iff emptied_holds (fun _ h => absurd h (by simp)) hroot hload
    (.fresh _) cached 7 (.int 1) (.int 2)).mpr
      ⟨fun h => absurd h (by decide), fun _ he => absurd he not_mem_nil⟩
  exact ⟨m, hm, h1, h2, h4⟩

/-- A reversed range of a map that has entries panics. -/
theorem reversed_panics :
    (∀ top, (KvMap.new.put (.int 1) []).range top (.int 2) (.int 1) = none) ∧
    (∀ fuel, kvRange sampleEnv legacy (.int 2) (.int 1) fuel = none) ∧
    cached.range (.int 2) (.int 1) 7 = none := by
  refine ⟨fun top => if_pos ⟨top.filled (by decide), by decide⟩, fun fuel => ?_, rfl⟩
  obtain ⟨m, hroot, hload, hm, -⟩ := legacy_load
  rw [kvRange_legacy hroot hload, if_pos ⟨ne_nil_of_length_eq_add_one hm, by decide⟩]

end UldrenLoom.Kv
