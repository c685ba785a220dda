import UldrenLoom.Kv.Calls
import UldrenLoom.Vcs.FreeDigest

/-!
# Exact tokens

A token names the anchor of a key. Anchors outlive their entries and only ever advance, so that a
token is good exactly until the key is mutated.

* **`dispatchConditioned_eq`**: a conditioned call is a check followed by the unconditioned call.
* **`step_stands`**, **`after_stands`**: what one call and what a sequence of calls does to the
  anchor of a key.
* **`exactToken_iff`**: a token still matches exactly if its key was not mutated since.
-/

set_option linter.unusedSectionVars false

namespace UldrenLoom.Kv

open ByteString Fallible Cbor Tabular Prolly Effect
open Fallible (Ends)
open Vcs (DigestCode)

variable {D : Type} [DigestCode D] [DecidableEq D] [ToString D] {hash : Node D → D} (env : Env D)

/-! ## Conditioned calls -/

/-- The check of the conditioned calls. -/
def checkCondition (c : Collection hash) (key : Value) (condition : KvCondition) : Result Unit := do
  match ← readProllyRoot c with
  | some root =>
    let current ← kvGet env c key
    let anchor ← kvAnchorFromRoot c root key
    checkKvCondition env key current anchor condition
  | none =>
    let map ← loadOrEmpty env c
    checkKvCondition env key (map.get key) (map.anchor key) condition

variable {α : Type}

/-- **A conditioned call** is the check and then the unconditioned call. -/
theorem dispatchConditioned_eq (key : Value) (condition : KvCondition)
    (prolly : KvProllyRoot D → Call hash α) (whole : KvMap → Call hash α) (c : Collection hash) :
    exec (dispatchConditioned env key condition prolly whole) c =
      match checkCondition env c key condition with
      | .ok _ => exec (dispatch env prolly whole) c
      | .error e => (.error e, c) := by
  rw [dispatchConditioned, checkCondition, dispatch, exec_get_bind, exec_get_bind, exec_lift_bind,
    exec_lift_bind]
  cases readProllyRoot c with
  | error e => rfl
  | ok root =>
    rw [ok_bind]
    cases root with
    | some root =>
      dsimp only
      rw [exec_lift_bind]
      cases kvGet env c key with
      | error e => rfl
      | ok current =>
        dsimp only
        rw [exec_lift_bind, ok_bind]
        cases kvAnchorFromRoot c root key with
        | error e => rfl
        | ok anchor =>
          dsimp only
          rw [exec_lift_bind, ok_bind]
          cases checkKvCondition env key current anchor condition <;> rfl
    | none =>
      dsimp only
      rw [exec_get_bind, exec_lift_bind, exec_lift_bind]
      cases loadOrEmpty env c with
      | error e => rfl
      | ok map =>
        dsimp only
        rw [exec_lift_bind, ok_bind]
        cases checkKvCondition env key (map.get key) (map.anchor key) condition <;> rfl

/-! ## Sequences of calls -/

/-- A mutating call. -/
inductive Mutation where
  | put (key : Value) (value : Bytes)
  | delete (key : Value)
  | putConditioned (key : Value) (value : Bytes) (condition : KvCondition)
  | deleteConditioned (key : Value) (condition : KvCondition)
  | replace (entries : KeyMap Bytes)

namespace Mutation

/-- Make the call; the result is whether it mutated the collection. -/
def call : Mutation → Call hash Bool
  | .put key value => do
    kvPut env key value
    return true
  | .delete key => kvDelete env key
  | .putConditioned key value condition => do
    kvPutConditioned env key value condition
    return true
  | .deleteConditioned key condition => kvDeleteConditioned env key condition
  | .replace entries => do
    replaceKvMap env entries
    return true

/-- The call is one on the key; replacing the map is one on every key. -/
def Touches (key : Value) : Mutation → Prop
  | .put key' _ | .delete key' | .putConditioned key' _ _ | .deleteConditioned key' _ =>
    encodeKeyValue key' = encodeKeyValue key
  | .replace _ => True

/-- The keys of the call are values of the source's types. -/
def Wf : Mutation → Prop
  | .put key _ | .delete key | .putConditioned key _ _ | .deleteConditioned key _ => key.Wf
  | .replace entries => ∀ e ∈ entries.entries, e.1.Wf

end Mutation

/-- The collection after a sequence of calls, failed ones included. -/
def after (ops : List Mutation) (c : Collection hash) : Collection hash :=
  ops.foldl (fun c op => (exec (op.call env) c).2) c

/-- One of the calls mutated the key. -/
def Mutated (key : Value) : List Mutation → Collection hash → Prop
  | [], _ => False
  | op :: ops, c => op.Touches key ∧ (exec (op.call env) c).1 = .ok true ∨
    Mutated key ops (exec (op.call env) c).2

theorem not_mutated_singleton {key : Value} {op : Mutation} (h : ¬ op.Touches key)
    (c : Collection hash) : ¬ Mutated env key [op] c := fun hm => hm.elim (h ·.1) id

/-! ## What a call does to a key -/

/-- The collection stands for a map. -/
def Stands (c : Collection hash) (m : KvMap) : Prop :=
  (c.root = none ∧ m = KvMap.new) ∨ ∃ root, Holds env c root m

/-- The key is as it was. -/
structure Kept (m m' : KvMap) (key : Value) : Prop where
  anchor : m'.anchors.get key = m.anchors.get key
  entry : m'.entries.get key = m.entries.get key

/-- The anchor of the key has advanced. -/
structure Advanced (m m' : KvMap) (key : Value) : Prop where
  lt : (m.anchor key).toNat < (m'.anchor key).toNat
  anchored : m'.anchors.get key ≠ none

/-- What a call with a result has done to the map. -/
structure Moves (op : Mutation) (r : Result Bool) (m m' : KvMap) : Prop where
  advanced : ∀ key, r = .ok true → op.Touches key → m.anchors.get key ≠ none → Advanced m m' key
  kept : ∀ key, ¬ (op.Touches key ∧ r = .ok true) → Kept m m' key

variable {env}

theorem Kept.refl (m : KvMap) (key : Value) : Kept m m key := ⟨rfl, rfl⟩

theorem toNat_add_one {a : UInt64} (h : a.toNat + 1 < 2 ^ 64) : (a + 1).toNat = a.toNat + 1 := by
  exact Nat.mod_eq_of_lt h

variable {key : Value}

theorem moves_of_key {op : Mutation} {m m' : KvMap}
    (hop : ∀ key', op.Touches key' ↔ encodeKeyValue key = encodeKeyValue key')
    (hlt : (m.anchor key).toNat + 1 < 2 ^ 64)
    (ha : ∀ key', m'.anchors.get key' = if encodeKeyValue key = encodeKeyValue key' then
      some (m.anchor key + 1) else m.anchors.get key')
    (he : ∀ key', encodeKeyValue key ≠ encodeKeyValue key' →
      m'.entries.get key' = m.entries.get key') :
    Moves op (.ok true) m m' where
  advanced key' _ ht _ := by
    have hk := (hop key').mp ht
    have hm : m.anchor key' = m.anchor key := by
      rw [KvMap.anchor, KvMap.anchor, KeyMap.get_of_key _ hk]
    have hm' : m'.anchors.get key' = some (m.anchor key + 1) := by rw [ha, if_pos hk]
    have hnext : m'.anchor key' = m.anchor key + 1 := by rw [KvMap.anchor, hm', Option.getD_some]
    refine ⟨?_, by simp [hm']⟩
    rw [hm, hnext, toNat_add_one hlt]
    exact Nat.lt_succ_self _
  kept key' hn := by
    have hk : encodeKeyValue key ≠ encodeKeyValue key' := fun h => hn ⟨(hop key').mpr h, rfl⟩
    exact ⟨by rw [ha, if_neg hk], he key' hk⟩

theorem moves_refl {op : Mutation} {r : Result Bool} (hr : r ≠ .ok true) (m : KvMap) :
    Moves op r m m :=
  ⟨fun _ h => absurd h hr, fun key _ => Kept.refl m key⟩

theorem wfMap_new : WfMap KvMap.new :=
  ⟨by simp [KvMap.new, KeyMap.empty, KeyMap.entries, SortedMap.empty],
    by simp [KvMap.new, KeyMap.empty, KeyMap.entries, SortedMap.empty], fun _ h => absurd rfl h⟩

section Step

variable {c : Collection hash} {m : KvMap}

theorem Stands.grown (h : Stands env c m) {c' : Collection hash} (hg : Grown env c c') :
    Stands env c' m := by
  obtain ⟨hr, hm⟩ | ⟨root, hr⟩ := h
  · exact .inl ⟨hg.root_eq.trans hr, hm⟩
  · exact .inr ⟨root, hr.grown hg⟩

variable {α : Type} {prolly : KvProllyRoot D → Call hash α} {whole : KvMap → Call hash α}

theorem exec_dispatch_whole (hr : readProllyRoot c = .ok none) (hl : loadOrEmpty env c = .ok m) :
    exec (dispatch env prolly whole) c = exec (whole m) c := by
  rw [dispatch, exec_get_bind, hr]
  change exec (get >>= fun c' => liftM (loadOrEmpty env c') >>= whole) c = _
  rw [exec_get_bind, hl]
  exact exec_bind_of_ok (exec_lift _ c) whole

theorem exec_dispatch_none (hr : c.root = none) :
    exec (dispatch env prolly whole) c = exec (whole KvMap.new) c :=
  exec_dispatch_whole (by rw [readProllyRoot, hr]) (by rw [loadOrEmpty, hr])

theorem exec_dispatch_holds {root : KvProllyRoot D} (h : Holds env c root m) :
    exec (dispatch env prolly whole) c = exec (prolly root) c := by
  rw [dispatch, exec_get_bind, h.readProllyRoot]
  rfl

variable (hinj : Function.Injective hash) (hca : Function.Injective env.contentAddress)
  (hs : Stands env c m) {op : Mutation} {key : Value} (hk : key.Wf)
  (hop : ∀ key', op.Touches key' ↔ encodeKeyValue key = encodeKeyValue key')

include hinj hca hs hk hop in
theorem kvPut_stands (value : Bytes) :
    Effect.Ends (fun _ c' => ∃ m', Stands env c' m' ∧ Moves op (.ok true) m m')
      (fun _ c' => Stands env c' m) (kvPut env key value) c := by
  obtain ⟨hr, rfl⟩ | ⟨root, h⟩ := id hs
  · rw [Effect.Ends, kvPut, exec_dispatch_none hr]
    refine (stagePut_ends hinj hca hk wfMap_new value c).imp ?_ fun e c' he => hs.grown he.1
    rintro _ c' ⟨hlt, root, hc'⟩
    refine ⟨_, .inr ⟨root, hc'⟩, moves_of_key hop hlt (fun key' => ?_) fun key' hne => ?_⟩
    · exact KeyMap.get_insert _ _ _ _
    · exact (KeyMap.get_insert _ _ _ _).trans (if_neg hne)
  · rw [Effect.Ends, kvPut, exec_dispatch_holds h]
    refine (kvPutProlly_ends hinj hca h hk value).imp ?_ fun e c' he => hs.grown he.1
    rintro _ c' ⟨-, hlt, root', hc'⟩
    refine ⟨_, .inr ⟨root', hc'⟩, moves_of_key hop hlt (fun key' => ?_) fun key' hne => ?_⟩
    · exact KeyMap.get_set _ _ _ _
    · exact (KeyMap.get_set _ _ _ _).trans (if_neg hne)

include hinj hs hk hop in
theorem kvDelete_stands : Effect.Ends (fun b c' => ∃ m', Stands env c' m' ∧ Moves op (.ok b) m m')
      (fun _ c' => Stands env c' m) (kvDelete env key) c := by
  obtain ⟨hr, rfl⟩ | ⟨root, h⟩ := id hs
  · rw [Effect.Ends, kvDelete, exec_dispatch_none hr]
    exact ⟨KvMap.new, hs, moves_refl (by simp) _⟩
  · rw [Effect.Ends, kvDelete, exec_dispatch_holds h]
    refine (kvDeleteProlly_ends hinj h hk).imp ?_ fun e c' he => hs.grown he.1.1
    rintro b c' (⟨rfl, rfl, -⟩ | ⟨rfl, -, -, hlt, root', hc'⟩)
    · exact ⟨m, hs, moves_refl (by simp) m⟩
    · refine ⟨_, .inr ⟨root', hc'⟩, moves_of_key hop hlt (fun key' => ?_) fun key' hne => ?_⟩
      · exact KeyMap.get_set _ _ _ _
      · exact (KeyMap.get_erase _ _ _).trans (if_neg hne)

end Step

/-! ## Replacing the map -/

theorem KeyMap.get_foldl_insert {β : Type} (l : List (Value × α)) (b : β) (acc : KeyMap β)
    (key : Value) :
    (l.foldl (fun m e => m.insert e.1 b) acc).get key ≠ none ↔
      acc.get key ≠ none ∨ ∃ e ∈ l, encodeKeyValue e.1 = encodeKeyValue key := by
  induction l generalizing acc with
  | nil => simp
  | cons e l ih =>
    rw [List.foldl_cons, ih, KeyMap.get_insert]
    by_cases he : encodeKeyValue e.1 = encodeKeyValue key
    · simp [he]
    · simp [he]

theorem KeyMap.get_ne_none {m : KeyMap α} :
    m.get key ≠ none ↔ ∃ e ∈ m.entries, encodeKeyValue e.1 = encodeKeyValue key := by
  rw [Option.ne_none_iff_exists']
  simp only [KeyMap.get_eq_some]
  exact ⟨fun ⟨a, k, hk, h⟩ => ⟨(k, a), h, hk⟩, fun ⟨e, h, hk⟩ => ⟨e.2, e.1, hk, h⟩⟩

theorem get_replacedKeys {anchors : KeyMap UInt64} {entries : KeyMap Bytes} :
    (replacedKeys anchors entries).get key ≠ none ↔
      anchors.get key ≠ none ∨ entries.get key ≠ none := by
  rw [replacedKeys, KeyMap.get_foldl_insert, KeyMap.get_foldl_insert, ← KeyMap.get_ne_none,
    ← KeyMap.get_ne_none]
  simp [KeyMap.get, KeyMap.empty]

theorem KeyMap.keys_foldl_insert {β : Type} {P : Value → Prop} {l : List (Value × α)}
    (hl : ∀ e ∈ l, P e.1) {b : β} {acc : KeyMap β} (hacc : ∀ e ∈ acc.entries, P e.1) :
    ∀ e ∈ (l.foldl (fun m e => m.insert e.1 b) acc).entries, P e.1 := by
  induction l generalizing acc with
  | nil => exact hacc
  | cons e l ih =>
    exact ih (fun x hx => hl x (by simp [hx])) (KeyMap.keys_insert hacc (hl e (by simp)))

theorem KeyMap.distinct (m : KeyMap α) :
    m.entries.Pairwise fun a b => encodeKeyValue a.1 ≠ encodeKeyValue b.1 := by
  rw [KeyMap.entries, List.pairwise_map]
  refine m.map.ascending.imp_of_mem fun {a b} ha hb hab => ?_
  rw [m.keyed (SortedMap.get_eq_some.mpr ha), m.keyed (SortedMap.get_eq_some.mpr hb)]
  exact hab.ne

theorem advanceAll_ends {L : List (Value × Unit)} (hwf : ∀ e ∈ L, e.1.Wf)
    (hL : L.Pairwise fun a b => encodeKeyValue a.1 ≠ encodeKeyValue b.1) (m : KvMap)
    (hm : ∀ e ∈ m.anchors.entries, e.1.Wf) :
    Ends (fun m' => m'.entries = m.entries ∧ (∀ e ∈ m'.anchors.entries, e.1.Wf) ∧
        ∀ key, ((∃ e ∈ L, encodeKeyValue e.1 = encodeKeyValue key) →
            (m.anchor key).toNat + 1 < 2 ^ 64 ∧ m'.anchors.get key = some (m.anchor key + 1)) ∧
          ((∀ e ∈ L, encodeKeyValue e.1 ≠ encodeKeyValue key) →
            m'.anchors.get key = m.anchors.get key))
      (· = exhausted) (L.foldlM (fun m e => m.advanceAnchor e.1) m) := by
  induction L generalizing m with
  | nil => exact ⟨rfl, hm, fun key => ⟨by simp, fun _ => rfl⟩⟩
  | cons e L ih =>
    rw [List.foldlM_cons, KvMap.advanceAnchor, bind_assoc]
    refine ((advanceKvAnchor_ends (m.anchor e.1)).imp (fun _ => id) fun _ => And.left).bind
      fun a ha => ?_
    obtain ⟨rfl, hlt⟩ := ha
    obtain ⟨hne, hL⟩ := List.pairwise_cons.mp hL
    refine (ih (fun x hx => hwf x (by simp [hx])) hL _
      (KeyMap.keys_insert hm (hwf e (by simp)))).imp ?_ fun _ => id
    rintro m' ⟨hent, hw, hkeys⟩
    refine ⟨hent, hw, fun key => ?_⟩
    obtain ⟨hin, hout⟩ := hkeys key
    by_cases he : encodeKeyValue e.1 = encodeKeyValue key
    · -- the key is advanced here, and no later one is the same
      have hanchor : m.anchor e.1 = m.anchor key := by
        rw [KvMap.anchor, KvMap.anchor, KeyMap.get_of_key _ he]
      refine ⟨fun _ => ⟨hanchor ▸ hlt, ?_⟩, fun h => absurd he (h e (by simp))⟩
      rw [hout fun x hx => he ▸ (hne x hx).symm, KeyMap.get_insert, if_pos he, hanchor]
    · have hget : (m.anchors.insert e.1 (m.anchor e.1 + 1)).get key = m.anchors.get key := by
        rw [KeyMap.get_insert, if_neg he]
      have hanchor : KvMap.anchor { m with anchors := m.anchors.insert e.1 (m.anchor e.1 + 1) } key =
          m.anchor key := congrArg (fun a => Option.getD a 0) hget
      refine ⟨?_, fun h => (hout fun x hx => h x (by simp [hx])).trans hget⟩
      rintro ⟨x, hx, hxk⟩
      rcases List.mem_cons.mp hx with rfl | hx
      · exact absurd hxk he
      · rw [← hanchor]
        exact hin ⟨x, hx, hxk⟩

section Replace

variable {c : Collection hash} {m : KvMap}

theorem loadOrEmpty_stands (hs : Stands env c m) :
    Ends (· = m) (fun _ => True) (loadOrEmpty env c) := by
  obtain ⟨hr, rfl⟩ | ⟨root, h⟩ := hs
  · rw [loadOrEmpty, hr]
    exact rfl
  · exact (loadOrEmpty_ends h).imp (fun _ => And.left) fun _ _ => trivial

theorem wf_stands (hs : Stands env c m) : WfMap m := by
  obtain ⟨-, rfl⟩ | ⟨root, h⟩ := hs
  · exact wfMap_new
  · exact ⟨fun e he => (h.entry e he).1, fun e he => (h.anchor e he).1, h.live⟩

/-- **Replacing the map** advances the anchor of every key that has one. -/
theorem replaceKvMap_stands (hinj : Function.Injective hash)
    (hca : Function.Injective env.contentAddress) (hs : Stands env c m) {entries : KeyMap Bytes}
    (hwf : ∀ e ∈ entries.entries, e.1.Wf) :
    Effect.Ends (fun _ c' => ∃ m', Stands env c' m' ∧ Moves (.replace entries) (.ok true) m m')
      (fun _ c' => Stands env c' m) (replaceKvMap env entries) c := by
  have hm := wf_stands hs
  refine ((ends_lift (loadOrEmpty_stands hs)).imp (fun _ _ => id) ?_).bind fun r c1 hr => ?_
  · rintro e _ ⟨-, rfl⟩
    exact hs
  obtain ⟨rfl, rfl⟩ := hr
  have hkwf : ∀ e ∈ (replacedKeys r.anchors entries).entries, e.1.Wf :=
    KeyMap.keys_foldl_insert hwf (KeyMap.keys_foldl_insert hm.anchor fun _ h => nomatch h)
  refine ((ends_lift (advanceAll_ends hkwf (KeyMap.distinct _) ⟨r.anchors, entries⟩ hm.anchor)).imp
    (fun _ _ => id) ?_).bind fun m' c2 hm' => ?_
  · rintro e _ ⟨-, rfl⟩
    exact hs
  obtain ⟨⟨hent, hw, hadv⟩, rfl⟩ := hm'
  have hent : m'.entries = entries := hent
  have hkey : ∀ {key}, r.anchors.get key ≠ none ∨ entries.get key ≠ none →
      (r.anchor key).toNat + 1 < 2 ^ 64 ∧ m'.anchors.get key = some (r.anchor key + 1) := fun h =>
    (hadv _).1 (KeyMap.get_ne_none.mp (get_replacedKeys.mpr h))
  have hm' : WfMap m' := by
    refine ⟨hent ▸ hwf, hw, fun key h => ?_⟩
    rw [(hkey (.inr (hent ▸ h))).2]
    simp
  refine (stageKv_ends hinj hca hm' c2).imp ?_ fun e c' he => hs.grown he.2
  rintro _ c' ⟨root, hc'⟩
  refine ⟨m', .inr ⟨root, hc'⟩, fun key _ _ hkn => ?_, fun key h => absurd ⟨trivial, rfl⟩ h⟩
  obtain ⟨hlt, hnew⟩ := hkey (.inl hkn)
  refine ⟨?_, by simp [hnew]⟩
  rw [show m'.anchor key = r.anchor key + 1 by rw [KvMap.anchor, hnew]; rfl, toNat_add_one hlt]
  exact Nat.lt_succ_self _

end Replace

/-! ## Runs -/

section Runs

variable (hinj : Function.Injective hash) (hca : Function.Injective env.contentAddress)
  {c : Collection hash} {m : KvMap}

variable {op : Mutation}

theorem moves_of_ends {x : Call hash Bool}
    (h : Effect.Ends (fun b c' => ∃ m', Stands env c' m' ∧ Moves op (.ok b) m m')
      (fun _ c' => Stands env c' m) x c) :
    ∃ m', Stands env (exec x c).2 m' ∧ Moves op (exec x c).1 m m' := by
  rcases hx : exec x c with ⟨e | b, c'⟩
  · exact ⟨m, h.of_error hx, moves_refl (by simp) m⟩
  · exact h.of_ok hx

include hinj hca

theorem kvPut_call_stands (hs : Stands env c m) {key : Value} (hk : key.Wf)
    (hop : ∀ key', op.Touches key' ↔ encodeKeyValue key = encodeKeyValue key') (value : Bytes) :
    Effect.Ends (fun b c' => ∃ m', Stands env c' m' ∧ Moves op (.ok b) m m')
      (fun _ c' => Stands env c' m) (do kvPut env key value; return true : Call hash Bool) c :=
  (kvPut_stands hinj hca hs hk hop value).bind fun _ _ h => h

/-- **One call**: exactly the keys that were mutated have moved. -/
theorem step_stands (hs : Stands env c m) (hwf : op.Wf) :
    ∃ m', Stands env (exec (op.call env) c).2 m' ∧ Moves op (exec (op.call env) c).1 m m' := by
  have hcond : ∀ {x y : Call hash Bool} (key : Value) (condition : KvCondition),
      Effect.Ends (fun b c' => ∃ m', Stands env c' m' ∧ Moves op (.ok b) m m')
        (fun _ c' => Stands env c' m) x c →
      (exec y c = match checkCondition env c key condition with
        | .ok _ => exec x c
        | .error e => (.error e, c)) →
      ∃ m', Stands env (exec y c).2 m' ∧ Moves op (exec y c).1 m m' := by
    intro x y key condition hx hy
    rw [hy]
    cases checkCondition env c key condition with
    | error e => exact ⟨m, hs, moves_refl (by simp) m⟩
    | ok _ => exact moves_of_ends hx
  cases op with
  | put key value => exact moves_of_ends (kvPut_call_stands hinj hca hs hwf (fun _ => Iff.rfl) value)
  | delete key => exact moves_of_ends (kvDelete_stands hinj hs hwf fun _ => Iff.rfl)
  | putConditioned key value condition =>
    refine hcond key condition (kvPut_call_stands hinj hca hs hwf (fun _ => Iff.rfl) value) ?_
    rw [Mutation.call, exec_bind, kvPutConditioned, dispatchConditioned_eq, exec_bind]
    cases checkCondition env c key condition <;> rfl
  | deleteConditioned key condition =>
    exact hcond key condition (kvDelete_stands hinj hs hwf fun _ => Iff.rfl)
      (dispatchConditioned_eq env key condition _ _ c)
  | replace entries =>
    exact moves_of_ends (Effect.Ends.bind (f := fun _ => pure true)
      (replaceKvMap_stands hinj hca hs hwf) fun _ _ h => h)

/-- **A sequence of calls**: the anchors of mutated keys advance, and other keys are as they
were. -/
theorem after_stands (ops : List Mutation) (hwf : ∀ op ∈ ops, op.Wf) (hs : Stands env c m) :
    ∃ m', Stands env (after env ops c) m' ∧ ∀ key, m.anchors.get key ≠ none →
      (Mutated env key ops c → Advanced m m' key) ∧ (¬ Mutated env key ops c → Kept m m' key) := by
  induction ops generalizing c m with
  | nil => exact ⟨m, hs, fun key _ => ⟨fun h => h.elim, fun _ => Kept.refl m key⟩⟩
  | cons op ops ih =>
    obtain ⟨m1, hs1, hmove⟩ := step_stands hinj hca hs (hwf op (by simp))
    obtain ⟨m2, hs2, hrest⟩ := ih (fun o ho => hwf o (by simp [ho])) hs1
    refine ⟨m2, hs2, fun key hkey => ?_⟩
    by_cases hnow : op.Touches key ∧ (exec (op.call env) c).1 = .ok true
    · -- the key is mutated now, and afterwards its anchor does not fall
      obtain ⟨hlt, hanc⟩ := hmove.advanced key hnow.2 hnow.1 hkey
      obtain ⟨hadv, hkept⟩ := hrest key hanc
      refine ⟨fun _ => ?_, fun h => absurd (.inl hnow) h⟩
      by_cases hlater : Mutated env key ops (exec (op.call env) c).2
      · exact ⟨hlt.trans (hadv hlater).lt, (hadv hlater).anchored⟩
      · have hk := (hkept hlater).anchor
        refine ⟨?_, hk ▸ hanc⟩
        rw [show m2.anchor key = m1.anchor key by rw [KvMap.anchor, KvMap.anchor, hk]]
        exact hlt
    · obtain ⟨hka, hke⟩ := hmove.kept key hnow
      obtain ⟨hadv, hkept⟩ := hrest key (hka ▸ hkey)
      have hanchor : m1.anchor key = m.anchor key := by rw [KvMap.anchor, KvMap.anchor, hka]
      refine ⟨fun h => ?_, fun h => ?_⟩
      · obtain ⟨hlt, hanc⟩ := hadv (h.resolve_left hnow)
        exact ⟨hanchor ▸ hlt, hanc⟩
      · have hk := hkept fun h' => h (.inr h')
        exact ⟨hk.anchor.trans hka, hk.entry.trans hke⟩

end Runs

/-! ## Tokens -/

/-- **A token determines its anchor.** -/
theorem kvExactTokenFor_inj {a a' : UInt64} {t : Bytes} (h : kvExactTokenFor env key a = .ok t)
    (h' : kvExactTokenFor env key a' = .ok t) : a = a' := by
  obtain ⟨he, hs⟩ := encodeVec_eq_ok h
  obtain ⟨he', hs'⟩ := encodeVec_eq_ok h'
  have hc := Codec.canon_eq_of_encode he he' hs hs'
  simpa [Codec.canon, Codec.canonItems] using hc

section Tokens

variable {c : Collection hash} {m : KvMap} {key : Value} {t : Bytes}

theorem kvExactToken_stands (hs : Stands env c m) (ht : kvExactToken env c key = .ok (some t)) :
    m.entries.get key ≠ none ∧ kvExactTokenFor env key (m.anchor key) = .ok t ∧
      EntryReadable m key ∧ AnchorReadable m key := by
  obtain ⟨hr, rfl⟩ | ⟨root, h⟩ := hs
  · rw [kvExactToken, readProllyRoot, hr, ok_bind, loadOrEmpty, hr] at ht
    cases ht
  · rw [kvExactToken, h.readProllyRoot, ok_bind] at ht
    obtain ⟨r, hget, ht⟩ := of_bind ht
    obtain ⟨rfl, hread⟩ := (kvGet_ends h key).of_ok hget
    cases hv : m.entries.get key with
    | none =>
      rw [hv] at ht
      cases ht
    | some v =>
      rw [hv] at ht
      obtain ⟨a, ha, ht⟩ := of_bind ht
      obtain ⟨rfl, hread'⟩ := (kvAnchorFromRoot_ends h key).of_ok ha
      obtain ⟨t', ht', ht⟩ := of_bind ht
      obtain rfl := Option.some.inj (Except.ok.inj ht)
      exact ⟨by simp, ht', hread, hread'⟩

theorem checkKvCondition_exact {current : Option Bytes} {anchor : UInt64} :
    checkKvCondition env key current anchor (.exact t) = .ok () ↔
      current ≠ none ∧ kvExactTokenFor env key anchor = .ok t := by
  rw [checkKvCondition]
  cases htok : kvExactTokenFor env key anchor with
  | error e => simp
  | ok t' =>
    rw [ok_bind]
    split_ifs with h
    · simp [h.2, Option.isSome_iff_ne_none.mp h.1]
    · simp only [Except.ok.injEq, false_iff]
      rintro ⟨hc, rfl⟩
      exact h ⟨Option.isSome_iff_ne_none.mpr hc, rfl⟩

/-- The trees of entries and of anchors, if there are any, can be searched. -/
def treesLow (c : Collection hash) : Bool :=
  match readProllyRoot c with
  | .ok (some root) => low c.store root.entries && low c.store root.anchors
  | _ => true

theorem checkCondition_ok (hs : Stands env c m) (h : checkCondition env c key (.exact t) = .ok ()) :
    kvExactTokenFor env key (m.anchor key) = .ok t ∧ treesLow c = true := by
  obtain ⟨hr, rfl⟩ | ⟨root, hh⟩ := hs
  · refine ⟨?_, by rw [treesLow, readProllyRoot, hr]⟩
    rw [checkCondition, readProllyRoot, hr, ok_bind, loadOrEmpty, hr] at h
    exact (checkKvCondition_exact.mp h).2
  · rw [checkCondition, hh.readProllyRoot, ok_bind] at h
    obtain ⟨r, hget, h⟩ := of_bind h
    obtain ⟨a, ha, h⟩ := of_bind h
    obtain ⟨rfl, -⟩ := (kvGet_ends hh key).of_ok hget
    obtain ⟨rfl, -⟩ := (kvAnchorFromRoot_ends hh key).of_ok ha
    obtain ⟨hlive, htok⟩ := checkKvCondition_exact.mp h
    refine ⟨htok, ?_⟩
    -- the key is in both trees, so that both lookups went down to a leaf
    have hpresent {β : Type} {n : KeyMap β} {f : Value × β → Bytes} (hn : n.get key ≠ none) :
        OrdMap.get (encodeKeyValue key) (n.records f) ≠ none := by
      rw [KeyMap.get_records]
      exact fun h => hn (by rw [KeyMap.get, Option.map_eq_none_iff.mp h]; rfl)
    rw [kvGet, hh.readProllyRoot, ok_bind] at hget
    obtain ⟨v, hv, -⟩ := of_bind hget
    obtain ⟨w, hw, -⟩ := of_bind ha
    rw [treesLow, hh.readProllyRoot]
    exact (Bool.and_eq_true _ _).mpr ⟨low_of_lookup hh.entries (hpresent hlive) hv,
      low_of_lookup hh.anchors (hpresent (hh.live key hlive)) hw⟩

theorem checkCondition_ends {root : KvProllyRoot D} (h : Holds env c root m)
    (hlive : m.entries.get key ≠ none) (htok : kvExactTokenFor env key (m.anchor key) = .ok t)
    (he : EntryReadable m key) (ha : AnchorReadable m key) (hlow : treesLow c = true) :
    Ends (fun _ => True) (fun _ => False) (checkCondition env c key (.exact t)) := by
  rw [treesLow, h.readProllyRoot] at hlow
  obtain ⟨hle, hla⟩ := (Bool.and_eq_true _ _).mp hlow
  rw [checkCondition, h.readProllyRoot, ok_bind]
  refine ((kvGet_ends h key).imp (fun _ => id) fun e h => ?_).bind fun r hr => ?_
  · exact h.elim (fun h => absurd hle (by simp [h.2])) (· he)
  refine ((kvAnchorFromRoot_ends h key).imp (fun _ => id) fun e h => ?_).bind fun a ha' => ?_
  · exact h.elim (fun h => absurd hla (by simp [h.2])) (· ha)
  obtain ⟨rfl, -⟩ := hr
  obtain ⟨rfl, -⟩ := ha'
  rw [checkKvCondition_exact.mpr ⟨hlive, htok⟩]
  trivial

/-- **Tokens.** From an absent collection on, a token matches exactly if its key has not been
mutated since, and the trees can be searched. -/
theorem exactToken_iff (hinj : Function.Injective hash)
    (hca : Function.Injective env.contentAddress) {c0 : Collection hash} (h0 : c0.root = none)
    (before since : List Mutation) (hbefore : ∀ op ∈ before, op.Wf) (hsince : ∀ op ∈ since, op.Wf)
    (key : Value) (t : Bytes) (ht : kvExactToken env (after env before c0) key = .ok (some t)) :
    checkCondition env (after env (before ++ since) c0) key (.exact t) = .ok () ↔
      ¬ Mutated env key since (after env before c0) ∧
        treesLow (after env (before ++ since) c0) = true := by
  have happ : after env (before ++ since) c0 = after env since (after env before c0) :=
    List.foldl_append
  obtain ⟨m, hs, -⟩ := after_stands hinj hca before hbefore (.inl ⟨h0, rfl⟩)
  obtain ⟨hlive, htok, hre, hra⟩ := kvExactToken_stands hs ht
  have hanchored := (wf_stands hs).live key hlive
  obtain ⟨m', hs', hkeys⟩ := after_stands hinj hca since hsince hs
  obtain ⟨hadv, hkept⟩ := hkeys key hanchored
  rw [happ]
  constructor
  · intro h
    obtain ⟨htok', hlow⟩ := checkCondition_ok hs' h
    refine ⟨fun hmut => ?_, hlow⟩
    have := (hadv hmut).lt
    rw [kvExactTokenFor_inj htok htok'] at this
    exact lt_irrefl _ this
  · rintro ⟨hmut, hlow⟩
    obtain ⟨hka, hke⟩ := hkept hmut
    have hanchor : m'.anchor key = m.anchor key := by rw [KvMap.anchor, KvMap.anchor, hka]
    obtain ⟨-, rfl⟩ | ⟨root, hh⟩ := id hs'
    · exact absurd (hka.symm.trans rfl) hanchored
    have hends := checkCondition_ends (t := t) hh (hke ▸ hlive) (hanchor ▸ htok)
      (by rwa [EntryReadable, hke]) (by rwa [AnchorReadable, hka, hanchor]) hlow
    cases hx : checkCondition env (after env since (after env before c0)) key (.exact t) with
    | ok _ => rfl
    | error e => exact (hends.of_error hx).elim

end Tokens

/-! ## A small collection -/

open Vcs (freeHash freeHash_injective)
open Serial (ser parse)

/-- Digests that start with the level of their node and end with the digest of its last child. -/
def nodeHash : Node Vcs.FreeDigest → Vcs.FreeDigest
  | .leaf es => 0 :: ser es []
  | .internal ch =>
    let ds := ch.map Prod.snd
    ((ds.getLastD []).headI + 1) :: ser (ch.map Prod.fst, ds.dropLast) (ds.getLastD [])

theorem nodeHash_injective : Function.Injective nodeHash
  | .leaf _, .leaf _, h => congrArg _ (parse (List.cons.inj h).2).1
  | .leaf _, .internal _, h => absurd (List.cons.inj h).1 (Nat.succ_ne_zero _).symm
  | .internal _, .leaf _, h => absurd (List.cons.inj h).1 (Nat.succ_ne_zero _)
  | .internal ch, .internal ch', h => by
    obtain ⟨hinit, hlast⟩ := parse (List.cons.inj h).2
    obtain ⟨hkeys, hinit⟩ := Prod.mk.inj hinit
    have hlen : ch.length = ch'.length := by simpa using congrArg List.length hkeys
    have hds : ch.map Prod.snd = ch'.map Prod.snd := by
      rcases List.eq_nil_or_concat (ch.map Prod.snd) with h0 | ⟨ds, d, hd⟩ <;>
        rcases List.eq_nil_or_concat (ch'.map Prod.snd) with h0' | ⟨ds', d', hd'⟩ <;>
        simp_all
    rw [List.zip_of_prod hkeys hds, ← List.zip_of_prod rfl rfl]

/-- Trees of one leaf, and values addressed by their blobs. -/
def sampleEnv : Env Vcs.FreeDigest where
  isBoundary _ _ := false
  contentAddress v := freeHash (.object (.blob v))
  ns := Vcs.Sample.ns
  collection := "c"

theorem contentAddress_injective : Function.Injective sampleEnv.contentAddress := fun _ _ h =>
  Vcs.Object.blob.inj (Vcs.Stored.object.inj (freeHash_injective h))

def absent : Collection nodeHash := ⟨none, fun _ => none, MemoryStore.new⟩

def firstToken : Bytes :=
  [132, 80, 0, 0, 0, 0, 0, 0, 0, 0, 0, 0, 0, 0, 0, 0, 0, 0, 97, 99, 130, 2, 1, 1]

/-- A token outlives a put of another key, and not that its own key is removed and put again. -/
theorem exactToken_recreated : checkCondition sampleEnv (after sampleEnv ([.put (.int 1) []] ++
      [.put (.int 2) []]) absent) (.int 1) (.exact firstToken) = .ok () ∧
    checkCondition sampleEnv (after sampleEnv ([.put (.int 1) []] ++
      [.delete (.int 1), .put (.int 1) []]) absent) (.int 1) (.exact firstToken) ≠ .ok () := by
  have h (since : List Mutation) (hsince : ∀ op ∈ since, op.Wf) :=
    exactToken_iff nodeHash_injective contentAddress_injective (show absent.root = none from rfl)
      [.put (.int 1) []] since (by simp [Mutation.Wf, Value.Wf]) hsince (.int 1) firstToken
      (by decide +kernel)
  refine ⟨(h _ (by simp [Mutation.Wf, Value.Wf])).mpr ⟨?_, by decide +kernel⟩, fun hok => ?_⟩
  · exact not_mutated_singleton _ (by simp only [Mutation.Touches]; decide) _
  · exact ((h _ (by simp [Mutation.Wf, Value.Wf])).mp hok).1 (.inl ⟨rfl, by decide +kernel⟩)

/-- Every node below level `64` ends at the key `false`. -/
def tallEnv : Env Vcs.FreeDigest :=
  { sampleEnv with
    isBoundary := fun key level => key == kvOrderedKey (.bool false) && decide (level < 64) }

def tallToken : Bytes :=
  [132, 80, 0, 0, 0, 0, 0, 0, 0, 0, 0, 0, 0, 0, 0, 0, 0, 0, 97, 99, 130, 1, 244, 1]

/-- The put of another key gives trees of height `64`, in which the first key is no longer found. -/
theorem exactToken_tall : kvExactToken tallEnv (after tallEnv [.put (.bool false) []] absent)
      (.bool false) = .ok (some tallToken) ∧
    ¬ Mutated tallEnv (.bool false) [.put (.bool true) []]
      (after tallEnv [.put (.bool false) []] absent) ∧
    checkCondition tallEnv (after tallEnv [.put (.bool false) [], .put (.bool true) []] absent)
      (.bool false) (.exact tallToken) = .error tooFar := by
  refine ⟨by decide +kernel, ?_, by decide +kernel⟩
  exact not_mutated_singleton _ (by simp only [Mutation.Touches]; decide) _

end UldrenLoom.Kv
