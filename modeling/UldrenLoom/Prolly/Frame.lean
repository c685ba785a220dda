import UldrenLoom.Prolly.Runs

/-!
# Trees beside each other in one store

A store holds many trees. An edit of one of them only adds nodes, so that the others stay what they
are.

* **`build_le`**, **`insert_le`**, **`remove_le`**: the store only grows; `Represents.mono`.
* **`build_ends`**, **`insert_ends`**, **`remove_ends`**, **`get_ends`**, **`entries_ends`**: on a
  tree that represents a map every call does what it does to the map, unless a tree is too high.
-/

set_option linter.unusedSectionVars false

namespace UldrenLoom.Prolly

open ByteString Fallible LevelTree OrdMap

variable {D : Type} [ToString D] [DecidableEq D] {hash : Node D → D} {B : Bytes → ℕ → Bool}

/-! ## Edits only add nodes -/

theorem chunkRun_le {α : Type} (node : List (Bytes × α) → Node D) (level : ℕ)
    (run xs : List (Bytes × α)) (s : MemoryStore hash) : s ≤ (chunkRun B node level run xs s).2 := by
  induction xs generalizing run s with
  | nil =>
    rw [chunkRun]
    split_ifs
    · exact le_rfl
    · exact le_put _ s
  | cons x xs ih =>
    rw [chunkRun]
    split_ifs
    · exact (le_put _ s).trans (ih [] _)
    · exact ih _ s

variable {s : MemoryStore hash}

theorem addLevels_le {left n : ℕ} {nodes : ChildRun D}
    {r : ChildRun D × MemoryStore hash} (h : addLevels B left n nodes s = .ok r) : s ≤ r.2 := by
  induction left generalizing n nodes s with
  | zero =>
    rw [addLevels] at h
    split_ifs at h with hl
    · exact Except.ok.inj h ▸ le_rfl
  | succ left ih =>
    rw [addLevels] at h
    split_ifs at h with hl
    · exact Except.ok.inj h ▸ le_rfl
    · exact (chunkRun_le _ _ _ _ s).trans (ih h)

variable {r : Option D × MemoryStore hash}

theorem build_le {E : List (Bytes × Bytes)} (h : build B E s = .ok r) : s ≤ r.2 := by
  rw [build] at h
  split_ifs at h
  · exact Except.ok.inj h ▸ le_rfl
  · obtain ⟨⟨nodes, s'⟩, hn, h⟩ := of_bind h
    exact Except.ok.inj h ▸ (chunkRun_le _ _ _ _ s).trans (addLevels_le hn)

variable {key : Bytes}

theorem rebuildWith_le {root : D} {change : Change}
    (h : rebuildWith B root key change s = .ok r) : s ≤ r.2 := by
  obtain ⟨es, -, h⟩ := of_bind h
  exact build_le h

theorem mutate_le {change : Change} {level : ℕ} {d : D} {rightmost : Bool}
    {r : Option (ChildRun D) × MemoryStore hash}
    (h : mutate B key change level d rightmost s = .ok r) : s ≤ r.2 := by
  induction level generalizing d rightmost s r with
  | zero =>
    rw [mutate] at h
    obtain ⟨node, -, h⟩ := of_bind h
    cases node with
    | leaf es =>
      dsimp only at h
      split_ifs at h
      · exact Except.ok.inj h ▸ le_rfl
      · exact Except.ok.inj h ▸ chunkRun_le _ _ _ _ s
    | internal children => exact absurd h (by simp)
  | succ level ih =>
    rw [mutate] at h
    obtain ⟨node, -, h⟩ := of_bind h
    cases node with
    | leaf es =>
      dsimp only at h
      split_ifs at h
      · exact Except.ok.inj h ▸ le_rfl
      · exact Except.ok.inj h ▸ chunkRun_le _ _ _ _ s
    | internal children =>
      dsimp only at h
      split at h
      · exact absurd h (by simp)
      · obtain ⟨⟨sub, s'⟩, hs, h⟩ := of_bind h
        cases sub with
        | none => exact Except.ok.inj h ▸ ih hs
        | some sub =>
          have hle : s ≤ s' := ih hs
          dsimp only at h
          split_ifs at h
          · exact Except.ok.inj h ▸ hle
          · exact Except.ok.inj h ▸ hle.trans (chunkRun_le _ _ _ _ s')

theorem finish_le {nodes : ChildRun D} {level : ℕ}
    {r : D × MemoryStore hash} (h : finish B nodes level s = .ok r) : s ≤ r.2 := by
  obtain ⟨⟨nodes', s'⟩, hn, h⟩ := of_bind h
  dsimp only at h
  split at h
  · exact absurd h (by simp)
  · obtain ⟨root, -, h⟩ := of_bind h
    exact Except.ok.inj h ▸ addLevels_le hn

theorem expectRoot_eq_ok {x : Result (Option D × MemoryStore hash)}
    {r : D × MemoryStore hash} (h : (x >>= expectRoot) = .ok r) : x = .ok (some r.1, r.2) := by
  obtain ⟨⟨_ | d, s⟩, rfl, h⟩ := of_bind h
  · exact absurd h (by simp [expectRoot])
  · rw [← Except.ok.inj h]

/-- **An insertion only adds nodes.** -/
theorem insert_le {root : Option D} {value : Bytes}
    {r : D × MemoryStore hash} (h : insert B root key value s = .ok r) : s ≤ r.2 := by
  cases root with
  | none => exact build_le (expectRoot_eq_ok h)
  | some root =>
    obtain ⟨n, -, h⟩ := of_bind h
    obtain ⟨⟨nodes, s'⟩, hm, h⟩ := of_bind h
    cases nodes with
    | some nodes => exact (mutate_le hm).trans (finish_le h)
    | none => exact (mutate_le hm).trans (rebuildWith_le (expectRoot_eq_ok h))

/-- **A removal only adds nodes.** -/
theorem remove_le {root : D} (h : remove B root key s = .ok r) : s ≤ r.2 := by
  obtain ⟨n, -, h⟩ := of_bind h
  obtain ⟨⟨nodes, s'⟩, hm, h⟩ := of_bind h
  dsimp only at h
  split at h
  · exact Except.ok.inj h ▸ mutate_le hm
  · obtain ⟨⟨d, s''⟩, hf, h⟩ := of_bind h
    exact Except.ok.inj h ▸ (mutate_le hm).trans (finish_le hf)
  · exact (mutate_le hm).trans (rebuildWith_le h)

theorem Represents.mono {s s' : MemoryStore hash} (hle : s ≤ s') {root : Option D}
    {E : List (Bytes × Bytes)} (h : Represents s.readNode root E) : Represents s'.readNode root E := by
  cases root with
  | none => exact h
  | some d =>
    obtain ⟨n, t, hr, hf, he, ha⟩ := h
    exact ⟨n, t, hr.mono (readNode_mono hle), hf, he, ha⟩

/-! ## Calls on a represented map -/

def tooFar : LoomError := .corrupt "prolly tree deeper than the structural maximum"

/-- The errors of trees with too many levels. -/
def Tall (e : LoomError) : Prop := e = tooTall ∨ e = tooDeep ∨ e = tooFar

theorem TooHigh.ends {α : Type} {x : Result α} (h : TooHigh x) (P : α → Prop) :
    Ends P Tall x := by
  rcases h with rfl | rfl
  · exact .inl rfl
  · exact .inr (.inl rfl)

variable (hinj : Function.Injective hash) {root : Option D} {M : List (Bytes × Bytes)}
  {s : MemoryStore hash}

include hinj

theorem build_ends (hM : Ascending M) (s : MemoryStore hash) :
    Ends (fun r => s ≤ r.2 ∧ Represents r.2.readNode r.1 M) Tall (build B M s) := by
  obtain ⟨root, s', hb, hr⟩ | hb := build_represents (B := B) hinj hM s
  · rw [hb]
    exact ⟨build_le hb, hr⟩
  · exact TooHigh.ends (.inl hb) _

theorem insert_ends (h : Represents s.readNode root M) (key v : Bytes) :
    Ends (fun r => s ≤ r.2 ∧ Represents r.2.readNode (some r.1) (OrdMap.insert key v M)) Tall
      (insert B root key v s) := by
  obtain ⟨d, s', hi, hr⟩ | hi := insert_represents (B := B) hinj h key v
  · rw [hi]
    exact ⟨insert_le hi, hr⟩
  · exact hi.ends _

theorem remove_ends {r : D} (h : SearchTree s.readNode r M) (key : Bytes) :
    Ends (fun r => s ≤ r.2 ∧ Represents r.2.readNode r.1 (OrdMap.erase key M)) Tall
      (remove B r key s) := by
  obtain ⟨root, s', hi, hr⟩ | hi := remove_represents (B := B) hinj h key
  · rw [hi]
    exact ⟨remove_le hi, hr⟩
  · exact hi.ends _

omit [DecidableEq D] hinj

/-- The tree has fewer levels than a lookup goes down. -/
def low (s : MemoryStore hash) (root : Option D) : Bool :=
  root.all fun d => (height s.readNode d).toOption.any (· < maxDepth)

theorem low_iff {n : ℕ} {t : Tree Bytes Bytes n} {r : D} (hr : Rep s.readNode n t r)
    (hf : Full n t) : low s (some r) = true ↔ n < maxDepth := by
  rw [low, Option.all_some, height_rep hr hf]
  split_ifs with hn
  · simp [Except.toOption]
  · simp [Except.toOption]
    omega

theorem get_ends {r : D} (h : SearchTree s.readNode r M) (key : Bytes) :
    Ends (· = OrdMap.get key M) (fun e => Tall e ∧ low s (some r) = false)
      (get s.readNode r key) := by
  obtain ⟨n, t, hr, hf, rfl, ha⟩ := h
  rw [get, show maxDepth = 63 + 1 from rfl, getFrom_rep key 63 hr hf ha]
  split_ifs with hn
  · rfl
  · refine ⟨.inr (.inr rfl), Bool.eq_false_iff.mpr fun hlow => hn (.inl ?_)⟩
    exact Nat.le_of_lt_succ ((low_iff hr hf).mp hlow)

/-- A lookup that finds its key went down all levels. -/
theorem low_of_get {r : D} (h : SearchTree s.readNode r M) {key : Bytes}
    (hk : OrdMap.get key M ≠ none) {v : Option Bytes} (hv : get s.readNode r key = .ok v) :
    low s (some r) = true := by
  obtain ⟨n, t, hr, hf, rfl, ha⟩ := h
  rw [get, show maxDepth = 63 + 1 from rfl, getFrom_rep key 63 hr hf ha] at hv
  split_ifs at hv with hn
  refine (low_iff hr hf).mpr (Nat.lt_succ_of_le (hn.resolve_right fun hlt => hk ?_))
  exact OrdMap.get_eq_none.mpr fun e he => ((le_maxKey hf ha e he).trans_lt hlt).ne

theorem entries_ends {r : D} (h : SearchTree s.readNode r M) :
    Ends (· = M) Tall (entries s.readNode r) := by
  obtain ⟨n, t, hr, hf, rfl, -⟩ := h
  by_cases hn : n ≤ maxDepth
  · rw [entries_rep hr hn]
    rfl
  · rw [entries, collectEntries_deep hr hf (Nat.lt_of_not_le hn)]
    exact .inr (.inl rfl)

end UldrenLoom.Prolly
