import UldrenLoom.Kv.Refine

/-!
# The writing calls

A call on a collection that holds a map leaves a collection that holds the changed map. A call that
fails leaves the map as it was.

* **`stageKv_ends`**: what staging a whole map does.
* **`kvPutProlly_ends`**, **`kvDeleteProlly_ends`**: what the edits below a prolly root do.
-/

set_option linter.unusedSectionVars false

namespace UldrenLoom.Kv

open ByteString Fallible Cbor Tabular Prolly Effect KeyMap
open Fallible (Ends)
open Vcs (DigestCode)

/-- A tree is too high, or a vector too long. -/
def Refused (e : LoomError) : Prop := Tall e ∨ e = oversize

variable {D : Type} [DigestCode D] [DecidableEq D] [ToString D] {hash : Node D → D} {env : Env D}

/-! ## Records -/

variable (env) in
theorem encodeKvEntry_ends {e : Value × Bytes} (hw : e.1.Wf) :
    Ends (fun b => b = entryRecord env e ∧
        encodeKvEntry e.1 (env.contentAddress e.2) e.2.length = .ok (entryRecord env e))
      (· = oversize) (encodeKvEntry e.1 (env.contentAddress e.2) e.2.length) := by
  refine (encodeVec_cell_ends hw (flat_entry (env.contentAddress e.2) _)).imp (fun b hb => ?_)
    fun _ => id
  have hb : encodeKvEntry e.1 (env.contentAddress e.2) e.2.length = .ok b := hb
  rw [entryRecord, hb]
  exact ⟨rfl, rfl⟩

theorem encodeKvAnchor_ends {e : Value × UInt64} (hw : e.1.Wf) :
    Ends (fun b => b = anchorRecord e ∧ encodeKvAnchor e.1 e.2 = .ok (anchorRecord e))
      (· = oversize) (encodeKvAnchor e.1 e.2) := by
  refine (encodeVec_cell_ends hw (flat_anchor e.2)).imp (fun b hb => ?_) fun _ => id
  have hb : encodeKvAnchor e.1 e.2 = .ok b := hb
  rw [anchorRecord, hb]
  exact ⟨rfl, rfl⟩

theorem mapM_records {α : Type} {m : KeyMap α} {f : Value × α → Bytes} {Q : Value × α → Prop}
    {g : Value × α → Result (Bytes × Bytes)}
    (h : ∀ e ∈ m.entries, Ends (fun y => y = (encodeKeyValue e.1, f e) ∧ Q e) (· = oversize) (g e)) :
    Ends (fun l => l = m.records f ∧ ∀ e ∈ m.entries, Q e) (· = oversize) (m.entries.mapM g) := by
  refine (Ends.mapM h).imp (fun l hl => ?_) fun _ => id
  rw [records_eq_map]
  generalize m.entries = xs at hl ⊢
  induction hl with
  | nil => simp
  | cons hy _ ih => exact ⟨by rw [hy.1, ih.1, List.map_cons], List.forall_mem_cons.mpr ⟨hy.2, ih.2⟩⟩

/-! ## Steps of a call -/

theorem onStore_ends {α : Type} {f : MemoryStore hash → Result (α × MemoryStore hash)}
    {P : α × MemoryStore hash → Prop} {E : LoomError → Prop} {c : Collection hash}
    (h : Ends P E (f c.store)) :
    Effect.Ends (fun a c' => P (a, c'.store) ∧ c'.root = c.root ∧ c'.values = c.values)
      (fun e c' => E e ∧ c' = c) (onStore f) c := by
  rw [Effect.Ends, onStore, exec_ofExec]
  cases hf : f c.store with
  | error e =>
    rw [hf] at h
    exact ⟨h, rfl⟩
  | ok r =>
    rw [hf] at h
    exact ⟨h, rfl, rfl⟩

theorem Grown.of_store {c c' : Collection hash} (hs : c.store ≤ c'.store) (hr : c'.root = c.root)
    (hv : c'.values = c.values) : Grown env c c' := ⟨hr, hs, fun _ h => by rw [hv]; exact h⟩

section Injective

variable (hinj : Function.Injective hash) (hca : Function.Injective env.contentAddress)

include hca

theorem exec_writeValue (v : Bytes) (c : Collection hash) :
    ∃ c', exec (writeValue env v) c = (.ok (), c') ∧ Grown env c c' ∧
      c'.values (env.contentAddress v) = some v := by
  refine ⟨_, rfl, ⟨rfl, le_rfl, fun v' hv' => ?_⟩, if_pos rfl⟩
  dsimp only
  split_ifs with h
  · rw [hca h]
  · exact hv'

theorem exec_writeValues (l : List (Value × Bytes)) (c : Collection hash) :
    ∃ c', exec (l.forM fun e => writeValue env e.2) c = (.ok (), c') ∧ Grown env c c' ∧
      ∀ e ∈ l, c'.values (env.contentAddress e.2) = some e.2 := by
  induction l generalizing c with
  | nil => exact ⟨c, rfl, Grown.refl c, by simp⟩
  | cons e l ih =>
    obtain ⟨c1, h1, hg1, hv1⟩ := exec_writeValue hca e.2 c
    obtain ⟨c2, h2, hg2, hv2⟩ := ih c1
    refine ⟨c2, ?_, hg1.trans hg2, List.forall_mem_cons.mpr ⟨hg2.values _ hv1, hv2⟩⟩
    exact (exec_bind_of_ok h1 _).trans h2

/-! ## Staging a whole map -/

omit hca in
/-- A map as the source's types allow it, whose live keys have anchors. -/
structure WfMap (m : KvMap) : Prop where
  entry : ∀ e ∈ m.entries.entries, e.1.Wf
  anchor : ∀ e ∈ m.anchors.entries, e.1.Wf
  live : ∀ key, m.entries.get key ≠ none → m.anchors.get key ≠ none

omit hca in
theorem KeyMap.keys_insert {α : Type} {P : Value → Prop} {m : KeyMap α} {key : Value} {a : α}
    (hm : ∀ e ∈ m.entries, P e.1) (hk : P key) : ∀ e ∈ (m.insert key a).entries, P e.1 := by
  rintro ⟨k, y⟩ he
  unfold KeyMap.insert at he
  split at he
  · rename_i e' he'
    rcases mem_entries_set he with ⟨rfl, rfl⟩ | he
    · exact (hm (e'.1, e'.2) (mem_entries.mpr ((m.keyed he').symm ▸ he')) : P e'.1)
    · exact hm _ he
  · rcases mem_entries_set he with ⟨rfl, rfl⟩ | he
    · exact hk
    · exact hm _ he

omit hca in
theorem WfMap.put {m : KvMap} (hm : WfMap m) {key : Value} (hk : key.Wf) (value : Bytes)
    (a : UInt64) : WfMap ⟨m.anchors.insert key a, m.entries.insert key value⟩ := by
  refine ⟨keys_insert hm.entry hk, keys_insert hm.anchor hk, fun key' hkey' => ?_⟩
  rw [get_insert] at hkey' ⊢
  split_ifs at hkey' ⊢
  · simp
  · exact hm.live key' hkey'

omit hca in
include hinj in
theorem encodeStructuredRoot_ends {m : KvMap} (hm : WfMap m) (c : Collection hash) :
    Effect.Ends (fun root c' => Grown env c c' ∧ Written env m ∧
        Represents c'.store.readNode root.entries (m.entries.records (entryRecord env)) ∧
        Represents c'.store.readNode root.anchors (m.anchors.records anchorRecord))
      (fun e c' => Refused e ∧ Grown env c c') (encodeStructuredRoot env m) c := by
  have hentries := mapM_records (m := m.entries) (f := entryRecord env) (g := treeEntry env)
    fun e he => (encodeKvEntry_ends env (hm.entry e he)).bind fun b hb =>
      show _ ∧ _ from ⟨by rw [kvOrderedKey_eq, hb.1], hb.2⟩
  have hanchors := mapM_records (m := m.anchors) (f := anchorRecord) (g := treeAnchor)
    fun e he => (encodeKvAnchor_ends (hm.anchor e he)).bind fun b hb =>
      show _ ∧ _ from ⟨by rw [kvOrderedKey_eq, hb.1], hb.2⟩
  have hlift : ∀ e (c' : Collection hash), e = oversize ∧ c' = c → Refused e ∧ Grown env c c' := by
    rintro _ _ ⟨rfl, rfl⟩
    exact ⟨.inr rfl, Grown.refl _⟩
  refine ((ends_lift hentries).imp (fun _ _ => id) hlift).bind fun es c1 hes => ?_
  obtain ⟨⟨rfl, hE⟩, rfl⟩ := hes
  refine ((ends_lift hanchors).imp (fun _ _ => id) hlift).bind fun as c1 has => ?_
  obtain ⟨⟨rfl, hA⟩, rfl⟩ := has
  refine ((onStore_ends (build_ends (B := env.isBoundary) hinj (ascending_records _ _)
    c1.store)).imp (fun _ _ => id) ?_).bind fun r c2 hr => ?_
  · rintro e _ ⟨he, rfl⟩
    exact ⟨.inl he, Grown.refl _⟩
  obtain ⟨⟨hle, hrep⟩, hroot, hvals⟩ := hr
  have hg : Grown env c1 c2 := Grown.of_store hle hroot hvals
  refine ((onStore_ends (build_ends (B := env.isBoundary) hinj (ascending_records _ _)
    c2.store)).imp (fun _ _ => id) ?_).bind fun r' c3 hr' => ?_
  · rintro e _ ⟨he, rfl⟩
    exact ⟨.inl he, hg⟩
  obtain ⟨⟨hle', hrep'⟩, hroot', hvals'⟩ := hr'
  refine ⟨hg.trans (Grown.of_store hle' hroot' hvals'), ⟨?_, ?_, hm.live⟩, hrep.mono hle', hrep'⟩
  · exact fun e he => ⟨hm.entry e he, hE e he⟩
  · exact fun e he => ⟨hm.anchor e he, hA e he⟩

include hinj in
/-- **Staging a map** leaves a collection that holds it. -/
theorem stageKv_ends {m : KvMap} (hm : WfMap m) (c : Collection hash) :
    Effect.Ends (fun _ c' => ∃ root, Holds env c' root m)
      (fun e c' => Refused e ∧ Grown env c c') (stageKv env m) c := by
  obtain ⟨c1, hw, hg, hv⟩ := exec_writeValues hca m.entries.entries c
  rw [Effect.Ends, stageKv, exec_bind_of_ok hw]
  refine ((encodeStructuredRoot_ends hinj hm c1).imp (fun _ _ => id) ?_).bind fun root c2 hr => ?_
  · exact fun e c' he => ⟨he.1, hg.trans he.2⟩
  obtain ⟨hg', hwr, hE, hA⟩ := hr
  refine ((ends_lift (encodeProllyRoot_ends root)).imp (fun _ _ => id) ?_).bind fun b c3 hb => ?_
  · rintro e _ ⟨rfl, rfl⟩
    exact ⟨.inr rfl, hg.trans hg'⟩
  obtain ⟨hb, rfl⟩ := hb
  refine ⟨root, hwr, ⟨b, hb, rfl⟩, hE, hA, fun e he => ?_⟩
  dsimp only
  rw [if_pos (List.mem_map_of_mem he)]
  exact hg'.values _ (hv e he)

/-! ## Edits below a prolly root -/

omit hca in
theorem advanceKvAnchor_ends (a : UInt64) : Ends (fun a' => a' = a + 1 ∧ a.toNat + 1 < 2 ^ 64)
      (fun e => e = exhausted ∧ ¬ a.toNat + 1 < 2 ^ 64) (advanceKvAnchor a) := by
  rw [advanceKvAnchor]
  split_ifs with h
  · exact ⟨rfl, h⟩
  · exact ⟨rfl, h⟩

omit hca in
/-- What a failed edit of a key leaves. -/
def EditFails (env : Env D) (c : Collection hash) (m : KvMap) (key : Value) (e : LoomError)
    (c' : Collection hash) : Prop :=
  Grown env c c' ∧ (Refused e ∨ ¬ AnchorReadable m key ∨
    e = exhausted ∧ ¬ (m.anchor key).toNat + 1 < 2 ^ 64)

variable {c : Collection hash} {root : KvProllyRoot D} {m : KvMap} (h : Holds env c root m)
  {key : Value} (hk : key.Wf)

omit hca in
include h in
theorem nextAnchor_ends :
    Effect.Ends (fun a c' => c' = c ∧ a = m.anchor key + 1 ∧ AnchorReadable m key ∧
        (m.anchor key).toNat + 1 < 2 ^ 64) (EditFails env c m key)
      (nextAnchor root key) c := by
  rw [Effect.Ends, nextAnchor, exec_get_bind]
  refine ((ends_lift (kvAnchorFromRoot_ends h key)).imp (fun _ _ => id) ?_).bind fun a c1 ha => ?_
  · rintro e _ ⟨he | he, rfl⟩
    · exact ⟨Grown.refl _, .inl (.inl he.1)⟩
    · exact ⟨Grown.refl _, .inr (.inl he)⟩
  obtain ⟨⟨rfl, hr⟩, rfl⟩ := ha
  refine (ends_lift (advanceKvAnchor_ends _)).imp ?_ ?_
  · rintro a _ ⟨⟨rfl, hlt⟩, rfl⟩
    exact ⟨rfl, rfl, hr, hlt⟩
  · rintro e _ ⟨he, rfl⟩
    exact ⟨Grown.refl _, .inr (.inr he)⟩

variable {c1 : Collection hash}

omit hca in
include hinj in
theorem onStore_insert_ends (hg : Grown env c c1) {r : Option D} {M : List (Bytes × Bytes)}
    (hr : Represents c1.store.readNode r M) (record : Bytes) :
    Effect.Ends (fun d c' => Grown env c1 c' ∧
        Represents c'.store.readNode (some d) (OrdMap.insert (encodeKeyValue key) record M))
      (EditFails env c m key) (onStore (Prolly.insert env.isBoundary r (kvOrderedKey key) record)) c1 := by
  rw [kvOrderedKey_eq]
  refine (onStore_ends (insert_ends (B := env.isBoundary) hinj hr _ record)).imp ?_ ?_
  · rintro d c' ⟨⟨hle, hrep⟩, hroot, hvals⟩
    exact ⟨Grown.of_store hle hroot hvals, hrep⟩
  · rintro e _ ⟨he, rfl⟩
    exact ⟨hg, .inl (.inl he)⟩

omit hca in
include hk in
theorem encodeKvAnchor_lift_ends (hg : Grown env c c1) (a : UInt64) :
    Effect.Ends (fun b c' => (b = anchorRecord (key, a) ∧
        encodeKvAnchor key a = .ok (anchorRecord (key, a))) ∧ c' = c1)
      (EditFails env c m key) (liftM (encodeKvAnchor key a) : Call hash Bytes) c1 := by
  refine (ends_lift (encodeKvAnchor_ends (e := (key, a)) hk)).imp (fun _ _ => id) ?_
  rintro e _ ⟨he, rfl⟩
  exact ⟨hg, .inl (.inr he)⟩

omit hca in
theorem writeProllyRoot_ends (hg : Grown env c c1) (r : KvProllyRoot D) :
    Effect.Ends (fun _ c' => ∃ b, encodeProllyRoot r = .ok b ∧ c' = { c1 with root := some b })
      (EditFails env c m key) (writeProllyRoot r) c1 := by
  refine ((ends_lift (encodeProllyRoot_ends r)).imp (fun _ _ => id) ?_).bind fun b c2 hb => ?_
  · rintro e _ ⟨he, rfl⟩
    exact ⟨hg, .inl (.inr he)⟩
  obtain ⟨hb, rfl⟩ := hb
  exact ⟨b, hb, rfl⟩

omit hca in
include hk in
theorem Written.set_anchor (h : Written env m) {a : UInt64}
    (ha : encodeKvAnchor key a = .ok (anchorRecord (key, a))) :
    ∀ e ∈ (m.anchors.set key a).entries, e.1.Wf ∧ encodeKvAnchor e.1 e.2 = .ok (anchorRecord e) := by
  rintro ⟨k, x⟩ he
  rcases mem_entries_set he with ⟨rfl, rfl⟩ | he
  · exact ⟨hk, ha⟩
  · exact h.anchor _ he

include hinj h hk in
/-- **A put below a prolly root** sets the key, and its anchor advances. -/
theorem kvPutProlly_ends (value : Bytes) :
    Effect.Ends (fun _ c' => AnchorReadable m key ∧ (m.anchor key).toNat + 1 < 2 ^ 64 ∧
        ∃ root', Holds env c' root' ⟨m.anchors.set key (m.anchor key + 1), m.entries.set key value⟩)
      (EditFails env c m key) (kvPutProlly env root key value) c := by
  rw [kvPutProlly]
  refine (nextAnchor_ends h).bind fun a c1 ha => ?_
  obtain ⟨rfl, rfl, hr, hlt⟩ := ha
  obtain ⟨c2, hw, hg2, hv⟩ := exec_writeValue hca value c1
  rw [Effect.Ends, exec_bind_of_ok hw]
  refine ((ends_lift (encodeKvEntry_ends env (e := (key, value)) hk)).imp
    (fun _ _ => id) ?_).bind fun b c3 hb => ?_
  · rintro e _ ⟨he, rfl⟩
    exact ⟨hg2, .inl (.inr he)⟩
  obtain ⟨⟨rfl, hrec⟩, rfl⟩ := hb
  refine (onStore_insert_ends hinj hg2 (h.grown hg2).entries _).bind fun d c4 hd => ?_
  obtain ⟨hg4, hent⟩ := hd
  have hg := hg2.trans hg4
  refine (encodeKvAnchor_lift_ends hk hg _).bind fun b c5 hb => ?_
  obtain ⟨⟨rfl, harec⟩, rfl⟩ := hb
  refine (onStore_insert_ends hinj hg (h.grown hg).anchors _).bind fun d' c6 hd' => ?_
  obtain ⟨hg6, hanc⟩ := hd'
  refine (writeProllyRoot_ends (hg.trans hg6) _).imp ?_ fun _ _ => id
  rintro _ _ ⟨b, hb, rfl⟩
  refine ⟨hr, hlt, _, ⟨?_, h.toWritten.set_anchor hk harec, ?_⟩, ⟨b, hb, rfl⟩, ?_, ?_, ?_⟩
  · rintro ⟨k, x⟩ he
    rcases mem_entries_set he with ⟨rfl, rfl⟩ | he
    · exact ⟨hk, hrec⟩
    · exact h.entry _ he
  · intro key' hkey'
    rw [get_set] at hkey' ⊢
    split_ifs at hkey' ⊢ with hkk
    · simp
    · exact h.live key' hkey'
  · rw [records_set]
    exact hent.mono hg6.store_le
  · rw [records_set]
    exact hanc
  · rintro ⟨k, x⟩ he
    rcases mem_entries_set he with ⟨rfl, rfl⟩ | he
    · exact (hg4.trans hg6).values _ hv
    · exact (hg.trans hg6).values _ (h.values _ he)

omit hca in
include hinj h hk in
/-- **A removal below a prolly root** drops a key that is there, and its anchor advances. -/
theorem kvDeleteProlly_ends : Effect.Ends (fun present c' =>
        (present = false ∧ c' = c ∧ m.entries.get key = none) ∨
        (present = true ∧ m.entries.get key ≠ none ∧ AnchorReadable m key ∧
          (m.anchor key).toNat + 1 < 2 ^ 64 ∧ ∃ root', Holds env c' root'
            ⟨m.anchors.set key (m.anchor key + 1), m.entries.erase key⟩))
      (fun e c' => EditFails env c m key e c' ∧ (m.entries.get key = none → Refused e))
      (kvDeleteProlly env root key) c := by
  have hget : OrdMap.get (encodeKeyValue key) (m.entries.records (entryRecord env)) = none ↔
      m.entries.get key = none := by
    rw [get_records, KeyMap.get, Option.map_eq_none_iff, Option.map_eq_none_iff]
  rw [Effect.Ends, kvDeleteProlly, exec_get_bind]
  cases hroot : root.entries with
  | none =>
    refine .inl ⟨rfl, rfl, hget.mp ?_⟩
    have hnil := h.entries
    rw [hroot] at hnil
    rw [show m.entries.records (entryRecord env) = [] from hnil]
    rfl
  | some r =>
    have hsearch : SearchTree c.store.readNode r (m.entries.records (entryRecord env)) := by
      have := h.entries
      rwa [hroot] at this
    dsimp only
    rw [kvOrderedKey_eq]
    refine ((ends_lift (get_ends hsearch _)).imp (fun _ _ => id) ?_).bind fun r' c1 hr' => ?_
    · rintro e _ ⟨⟨he, -⟩, rfl⟩
      exact ⟨⟨Grown.refl _, .inl (.inl he)⟩, fun _ => .inl he⟩
    obtain ⟨rfl, rfl⟩ := hr'
    by_cases hn : m.entries.get key = none
    · rw [hget.mpr hn]
      exact .inl ⟨rfl, rfl, hn⟩
    rw [if_neg (by rw [Option.isNone_iff_eq_none, hget]; exact hn)]
    refine Effect.Ends.imp (E := EditFails env c1 m key) ?_ (fun _ _ => id)
      fun e c' he => ⟨he, fun h' => absurd h' hn⟩
    refine (nextAnchor_ends h).bind fun a c2 ha => ?_
    obtain ⟨rfl, rfl, hr, hlt⟩ := ha
    refine ((onStore_ends (remove_ends (B := env.isBoundary) hinj hsearch _)).imp
      (fun _ _ => id) ?_).bind fun d c3 hd => ?_
    · rintro e _ ⟨he, rfl⟩
      exact ⟨Grown.refl _, .inl (.inl he)⟩
    obtain ⟨⟨hle, hent⟩, hroot3, hvals3⟩ := hd
    have hg : Grown env c2 c3 := Grown.of_store hle hroot3 hvals3
    refine (encodeKvAnchor_lift_ends hk hg _).bind fun b c4 hb => ?_
    obtain ⟨⟨rfl, harec⟩, rfl⟩ := hb
    rw [← kvOrderedKey_eq]
    refine (onStore_insert_ends hinj hg (h.grown hg).anchors _).bind fun d' c5 hd' => ?_
    obtain ⟨hg5, hanc⟩ := hd'
    refine (writeProllyRoot_ends (hg.trans hg5) _).bind fun _ c6 hb => ?_
    obtain ⟨b, hb, rfl⟩ := hb
    refine .inr ⟨rfl, hn, hr, hlt, _, ⟨?_, h.toWritten.set_anchor hk harec, ?_⟩, ⟨b, hb, rfl⟩,
      ?_, ?_, ?_⟩
    · exact fun e he => h.entry e (mem_entries_erase he)
    · intro key' hkey'
      rw [get_erase] at hkey'
      rw [get_set]
      split_ifs at hkey' ⊢ with hkk
      · exact absurd rfl hkey'
      · exact h.live key' hkey'
    · rw [records_erase]
      exact hent.mono hg5.store_le
    · rw [records_set]
      exact hanc
    · exact fun e he => (hg.trans hg5).values _ (h.values e (mem_entries_erase he))

omit h in
include hinj hk in
/-- **A put that stages the whole map.** -/
theorem stagePut_ends (hm : WfMap m) (value : Bytes) (c : Collection hash) :
    Effect.Ends (fun _ c' => (m.anchor key).toNat + 1 < 2 ^ 64 ∧ ∃ root, Holds env c' root
        ⟨m.anchors.insert key (m.anchor key + 1), m.entries.insert key value⟩)
      (fun e c' => Grown env c c' ∧
        (Refused e ∨ e = exhausted ∧ ¬ (m.anchor key).toNat + 1 < 2 ^ 64))
      (stagePut env m key value) c := by
  have hadv : Ends (fun m' => m' = ⟨m.anchors.insert key (m.anchor key + 1),
        m.entries.insert key value⟩ ∧ (m.anchor key).toNat + 1 < 2 ^ 64)
      (fun e => e = exhausted ∧ ¬ (m.anchor key).toNat + 1 < 2 ^ 64)
      (KvMap.advanceAnchor { m with entries := m.entries.insert key value } key) := by
    refine (advanceKvAnchor_ends (m.anchor key)).bind fun a ha => ?_
    obtain ⟨rfl, hlt⟩ := ha
    exact ⟨rfl, hlt⟩
  refine ((ends_lift hadv).imp (fun _ _ => id) ?_).bind fun m' c1 hm' => ?_
  · rintro e _ ⟨he, rfl⟩
    exact ⟨Grown.refl _, .inr he⟩
  obtain ⟨⟨rfl, hlt⟩, rfl⟩ := hm'
  refine (stageKv_ends hinj hca (hm.put hk value _) c1).imp (fun _ c' hc' => ⟨hlt, hc'⟩) ?_
  exact fun e c' he => ⟨he.2, .inl he.1⟩

end Injective

end UldrenLoom.Kv
