import UldrenLoom.Overlay.Model

/-!
# What the reads of an overlay see

Lookups by key, the list of entries and the scan of a prefix each filter the generations on their
own. All of them come to one list, the entries that a snapshot sees.

* **`OverlaySnapshot.currentEntry_eq`**: a lookup finds the last entry with the key.
* **`exportsExactly_iff`**: an export is exact if and only if no key with an entry is a stray.
-/

namespace UldrenLoom.Overlay

open ByteString SortedMap MutableOverlay

/-! ## Lookups -/

theorem Log.current_eq (log : Log) (generation : ℕ) (key : OverlayKey) :
    log.current generation key =
      newest OverlayEntry.key key (log.entries.filter (OverlayEntry.visible generation)) :=
  log.lookup_eq (OverlayEntry.visible generation) key

variable {heap : Heap}

/-- **A lookup finds the last entry with the key that the snapshot sees.** -/
theorem OverlaySnapshot.currentEntry_eq (s : OverlaySnapshot) (key : OverlayKey) :
    s.currentEntry heap key = newest OverlayEntry.key key (s.entries heap) := by
  induction s with
  | root generation log => exact Log.current_eq ..
  | fork generation log parent ih =>
    rw [currentEntry, entries, newest_append, Log.current_eq, ih]

theorem OverlaySnapshot.key_of_current {s : OverlaySnapshot} {key : OverlayKey} {e : OverlayEntry}
    (h : s.currentEntry heap key = some e) : e.key = key :=
  key_of_newest ((s.currentEntry_eq key).symm.trans h)

theorem MutableOverlay.currentEntry_snapshot (o : MutableOverlay) (key : OverlayKey) :
    o.snapshot.currentEntry heap key = o.currentEntry heap key := by
  obtain ⟨generation, log, tokens, _ | parent⟩ := o
  · exact (Option.or_none).symm
  · rfl

theorem get_byKey (l : List OverlayEntry) (key : OverlayKey) :
    (byKey l).get key = newest OverlayEntry.key key l := by
  refine (get_foldl_insert OverlayEntry.key id l .empty key).trans ?_
  rw [Option.map_id, get_empty, Option.or_none, id]

/-! ## The scan of a prefix -/

theorem Log.get_scan (log : Log) (generation : ℕ) (p : OverlayKeyPrefix)
    (m : SortedMap OverlayKey OverlayEntry) (key : OverlayKey) :
    (log.scan generation p m).get key =
      (if inRange p key then log.current generation key else none).or (m.get key) := by
  have hstep : (fun (m : SortedMap OverlayKey OverlayEntry) (item : OverlayKey × List ℕ) =>
      if inRange p item.1 then
        (latestVisibleEntry log.entries item.2 generation).elim m (m.insert item.1)
      else m) = fun m item =>
        (if inRange p item.1 then latestVisibleEntry log.entries item.2 generation else none).elim
          m (m.insert item.1) := by
    funext m item
    split_ifs <;> rfl
  unfold scan
  rw [List.foldl_filter, hstep, get_foldl_choose _ log.index.ascending.distinct]
  congr 1
  by_cases hk : inRange p key
  · simp only [hk, if_true]
    rfl
  · simp only [hk, Bool.false_eq_true, if_false]
    cases OrdMap.get key log.index.entries <;> rfl

/-- The scan of a prefix finds the current entries of the keys in its range. -/
theorem OverlaySnapshot.prefix_spec (heap : Heap) (p : OverlayKeyPrefix) (s : OverlaySnapshot) :
    ∃ m : SortedMap OverlayKey OverlayEntry,
      s.currentEntriesWithKeyPrefix heap p = m.entries.map Prod.snd ∧
        ∀ key, m.get key = if inRange p key then s.currentEntry heap key else none := by
  induction s with
  | root generation log =>
    refine ⟨_, rfl, fun key => ?_⟩
    rw [Log.get_scan, get_empty, Option.or_none]
    rfl
  | fork generation log parent ih =>
    obtain ⟨m, hm, hget⟩ := ih
    have hkeys : ∀ k e, m.get k = some e → e.key = k := by
      intro k e h
      rw [hget] at h
      split_ifs at h
      exact key_of_current h
    refine ⟨_, rfl, fun key => ?_⟩
    rw [Log.get_scan, get_byKey, hm, newest_values hkeys, hget, currentEntry]
    split_ifs <;> rfl

namespace MutableOverlay

variable {o : MutableOverlay}

theorem export_snapshot (o : MutableOverlay) (p : OverlayKeyPrefix) :
    o.exportEntriesWithKeyPrefix heap p = o.snapshot.currentEntriesWithKeyPrefix heap p := by
  obtain ⟨generation, log, tokens, _ | parent⟩ := o <;> rfl

theorem export_spec (heap : Heap) (o : MutableOverlay) (p : OverlayKeyPrefix) :
    ∃ m : SortedMap OverlayKey OverlayEntry,
      o.exportEntriesWithKeyPrefix heap p = m.entries.map Prod.snd ∧
        ∀ key, m.get key = if inRange p key then o.currentEntry heap key else none := by
  obtain ⟨m, hm, hget⟩ := o.snapshot.prefix_spec heap p
  refine ⟨m, (o.export_snapshot p).trans hm, fun key => ?_⟩
  rw [hget, currentEntry_snapshot]

theorem key_of_current {key : OverlayKey} {e : OverlayEntry}
    (h : o.currentEntry heap key = some e) : e.key = key :=
  OverlaySnapshot.key_of_current ((o.currentEntry_snapshot key).trans h)

theorem mem_export {p : OverlayKeyPrefix} {e : OverlayEntry} :
    e ∈ o.exportEntriesWithKeyPrefix heap p ↔
      o.currentEntry heap e.key = some e ∧ inRange p e.key := by
  obtain ⟨m, hm, hget⟩ := o.export_spec heap p
  rw [hm, List.mem_map]
  constructor
  · rintro ⟨⟨key, e'⟩, hmem, rfl⟩
    have h := (hget key).symm.trans (get_eq_some.mpr hmem)
    split_ifs at h with hrange
    rw [key_of_current h]
    exact ⟨h, hrange⟩
  · rintro ⟨h, hrange⟩
    refine ⟨(e.key, e), get_eq_some.mp ?_, rfl⟩
    rw [hget, if_pos hrange, h]

theorem nodup_export (p : OverlayKeyPrefix) :
    ((o.exportEntriesWithKeyPrefix heap p).map OverlayEntry.key).Nodup := by
  obtain ⟨m, hm, hget⟩ := o.export_spec heap p
  have hkeys : (m.entries.map Prod.snd).map OverlayEntry.key = m.keys := by
    rw [List.map_map]
    refine List.map_congr_left fun item hmem => ?_
    have h := (hget item.1).symm.trans (get_eq_some.mpr hmem)
    split_ifs at h
    exact key_of_current h
  rw [hm, hkeys]
  exact m.nodup_keys

end MutableOverlay

/-! ## The export of a prefix -/

/-- The export of a prefix: what is current for the keys that start with it, each key once. -/
def ExportsExactly (heap : Heap) (o : MutableOverlay) (p : OverlayKeyPrefix) : Prop :=
  (∀ e, e ∈ o.exportEntriesWithKeyPrefix heap p ↔
    o.currentEntry heap e.key = some e ∧ p.bytes <+: e.key.bytes) ∧
  ((o.exportEntriesWithKeyPrefix heap p).map OverlayEntry.key).Nodup

/-- No key with a current entry is a stray of the prefix. A prefix that does not end in `0xFF` has no
strays. -/
def NoStray (heap : Heap) (o : MutableOverlay) (p : OverlayKeyPrefix) : Prop :=
  ∀ e, o.currentEntry heap e.key = some e → ¬ Stray p.bytes e.key.bytes

/-- **The export of a prefix is right exactly if no key with an entry is a stray of it.** -/
theorem exportsExactly_iff (heap : Heap) (o : MutableOverlay) (p : OverlayKeyPrefix) :
    ExportsExactly heap o p ↔ NoStray heap o p := by
  constructor
  · rintro ⟨hmem, -⟩ e hcurrent hstray
    have hexport := mem_export.mpr ⟨hcurrent, inRange_iff.mpr (.inr hstray)⟩
    exact hstray.not_prefix ((hmem e).mp hexport).2
  · intro h
    refine ⟨fun e => ?_, nodup_export p⟩
    rw [mem_export, inRange_iff]
    exact and_congr_right fun hcurrent => or_iff_left (h e hcurrent)

namespace Sample

def digest (_ : Bytes) : OverlayOwnerToken := ⟨List.replicate 32 0, rfl⟩

def segments (domain : Bytes) : List Bytes :=
  [strBytes "workspace", strBytes "a", domain, strBytes "notes", strBytes "record", strBytes "1"]

def zeroKey : OverlayKey := ⟨frame (segments [0, 0]), by decide +kernel⟩

def fullScope : OverlayKeyPrefix := ⟨frame ((segments [255]).take 3), by decide +kernel⟩

def stray : MutableOverlay × Heap :=
  match (MutableOverlay.new 0).putValue digest [.empty] zeroKey none [1] with
  | .ok (_, o, heap) => (o, heap)
  | .error _ => (.new 0, [])

/-- **The export of one scope gives an entry of another.** -/
theorem stray_exported :
    (stray.1.exportEntriesWithKeyPrefix stray.2 fullScope).map OverlayEntry.key = [zeroKey] ∧
      ¬ ExportsExactly stray.2 stray.1 fullScope := by
  have hexport : (stray.1.exportEntriesWithKeyPrefix stray.2 fullScope).map OverlayEntry.key =
      [zeroKey] := by decide +kernel
  refine ⟨hexport, fun h => ?_⟩
  obtain ⟨e, he, hkey⟩ := List.mem_map.mp (hexport ▸ List.mem_singleton_self zeroKey)
  have hprefix := ((h.1 e).mp he).2
  rw [hkey] at hprefix
  exact absurd hprefix (by decide +kernel)

end Sample

end UldrenLoom.Overlay
