import UldrenLoom.Prolly.History

/-!
# Runs of edits

Any sequence of insertions and removals, starting from the empty tree, against the same sequence on
an ordinary map. The trees on the way need not be canonical.

* **`run_map_iff`**: the entries are those of the map, and lookups agree with it exactly when the
  height is below `maxDepth`.
* **`insertions_root`**: insertions that lead to the same map give the same root.
-/

set_option linter.unusedSectionVars false

namespace UldrenLoom.Prolly

open ByteString Fallible LevelTree Chunk OrdMap

abbrev Op := Bytes × Change

def Op.on (op : Op) (m : List (Bytes × Bytes)) : List (Bytes × Bytes) := op.2.on op.1 m

def mapOf (ops : List Op) : List (Bytes × Bytes) := ops.foldl (fun m op => op.on m) []

variable {D : Type} [ToString D] [DecidableEq D] {hash : Node D → D} (B : Bytes → ℕ → Bool)

/-- One call; there is nothing to remove from an empty tree. -/
def step (st : Option D × MemoryStore hash) (op : Op) : Result (Option D × MemoryStore hash) :=
  match op.2 with
  | .set v => do
    let (d, s) ← insert B st.1 op.1 v st.2
    .ok (some d, s)
  | .remove =>
    match st.1 with
    | none => .ok st
    | some r => remove B r op.1 st.2

def run (ops : List Op) (s : MemoryStore hash) : Result (Option D × MemoryStore hash) :=
  ops.foldlM (step B) (none, s)

/-- The tree has more levels than the descent accepts. -/
def tooDeep : LoomError := .corrupt "prolly tree too deep"

variable {B} (hinj : Function.Injective hash)

/-! ## One call -/

variable {E M : List (Bytes × Bytes)}

include hinj in
theorem build_represents (hE : Ascending E) (s : MemoryStore hash) :
    (∃ root s', build B E s = .ok (root, s') ∧ Represents s'.readNode root E) ∨
      build B E s = .error tooTall := by
  by_cases hne : E = []
  · subst hne
    exact .inl ⟨none, s, build_nil s, rfl⟩
  · rcases build_top (B := B) hinj hne s with ⟨T, d, s', hT, -, hb, -, hrep⟩ | ⟨hb, -⟩
    · exact .inl ⟨some d, s', hb, T.1, T.2, hrep, hT.full, hT.flatten_eq, hE⟩
    · exact .inr hb

variable {s : MemoryStore hash} {root : Option D}

include hinj in
theorem represents_of_build (hE : Ascending E) {s' : MemoryStore hash}
    (h : build B E s = .ok (root, s')) : Represents s'.readNode root E := by
  rcases build_represents (B := B) hinj hE s with ⟨root', s1, hb, hrep⟩ | hb
  · cases h.symm.trans hb
    exact hrep
  · exact absurd (h.symm.trans hb) (by simp)

include hinj in
theorem build_ok_iff (E : List (Bytes × Bytes)) (s : MemoryStore hash) :
    (∃ r, build B E s = .ok r) ↔ (forest B 254 E).length ≤ 1 := by
  by_cases hne : E = []
  · subst hne
    rw [forest_eq_nil.mpr rfl]
    exact ⟨fun _ => Nat.zero_le 1, fun _ => ⟨_, build_nil s⟩⟩
  · rcases build_top (B := B) hinj hne s with ⟨T, d, s', hT, hn, hb, -⟩ | ⟨hb, hlt⟩
    · have hle := length_forest_le (B := B) hn E
      rw [hT.1] at hle
      exact ⟨fun _ => hle, fun _ => ⟨_, hb⟩⟩
    · exact ⟨fun ⟨r, hr⟩ => absurd (hr.symm.trans hb) (by simp), fun h => absurd h (by omega)⟩

include hinj in
theorem represents_unique {s' : MemoryStore hash} {E' : List (Bytes × Bytes)}
    (h : Represents s.readNode root E) (h' : Represents s'.readNode root E') : E = E' := by
  cases root with
  | none => exact h.trans h'.symm
  | some d =>
    obtain ⟨n, t, hrep, hfull, rfl, -⟩ := h
    obtain ⟨m, u, hrep', hfull', rfl, -⟩ := h'
    cases digestOf_injective hinj hfull hfull' (hrep.digest.trans hrep'.digest.symm)
    rfl

include hinj in
theorem build_entries_iff (hE : Ascending E) (s : MemoryStore hash) :
    (∃ root s', build B E s = .ok (root, s') ∧ entriesOf s'.readNode root = .ok E) ↔
      (forest B maxDepth E).length ≤ 1 := by
  by_cases hne : E = []
  · subst hne
    rw [forest_eq_nil.mpr rfl]
    exact ⟨fun _ => Nat.zero_le 1, fun _ => ⟨none, s, build_nil s, rfl⟩⟩
  constructor
  · rintro ⟨root, s', hb, he⟩
    rcases build_top (B := B) hinj hne s with ⟨T, d, s1, hT, -, hb', -, hrep⟩ | ⟨hb', -⟩
    · cases hb.symm.trans hb'
      have := length_forest_le (B := B) (le_maxDepth_of_entries hrep hT.full he) E
      rwa [hT.1] at this
    · exact absurd (hb.symm.trans hb') (by simp)
  · intro hlen
    obtain ⟨T, hT, hn⟩ := exists_isTop hne hlen
    rcases build_top (B := B) hinj hne s with ⟨T', d, s', hT', -, hb, -, hrep⟩ | ⟨-, hlt⟩
    · rw [← hT.unique hT'] at hrep
      refine ⟨some d, s', hb, ?_⟩
      rw [entriesOf, entries_rep hrep hn, hT.flatten_eq]
    · have := length_forest_le (B := B) (show maxDepth ≤ 254 by decide) E
      omega

variable {n : ℕ} {t : Tree Bytes Bytes n} {r : D}

include hinj in
theorem mutate_represents (hrep : Rep s.readNode n t r) (hf : Full n t)
    (hasc : Ascending (flatten n t)) (key : Bytes) (change : Change) :
    mutate B key change n r true s = .ok (none, s) ∨
    ∃ nodes us s', mutate B key change n r true s = .ok (some nodes, s') ∧
      RepRun s'.readNode n us nodes ∧ contents n us = change.on key (flatten n t) ∧
      ∀ u ∈ us, Full n u := by
  have hm := mutate_rep (B := B) hinj key change true hrep hf
  rw [edit_congr (fun es hes => apply_eq_on change key hes) n hasc] at hm
  cases he : edit B (change.on key) key n t true with
  | none =>
    rw [he] at hm
    exact .inl hm
  | some us =>
    obtain ⟨hc, hfu⟩ := edit_contents (local_on change key) n hf hasc he
    rw [he] at hm
    obtain ⟨nodes, s', hmut, -, hrun⟩ := hm
    exact .inr ⟨nodes, us, s', hmut, hrun, hc, hfu⟩

include hinj in
theorem finish_represents {us : List (Tree Bytes Bytes n)} {nodes : ChildRun D}
    (h : RepRun s.readNode n us nodes) (hne : us ≠ []) (hf : ∀ u ∈ us, Full n u)
    (hasc : Ascending (contents n us)) (hn : n ≤ maxDepth) :
    (∃ d s', finish B nodes n s = .ok (d, s') ∧ SearchTree s'.readNode d (contents n us)) ∨
      finish B nodes n s = .error tooTall := by
  have hfin := finish_rep (B := B) hinj h hne hn
  cases hr : raise B (255 - n) n us with
  | none =>
    rw [hr] at hfin
    exact .inr hfin
  | some T =>
    rw [hr] at hfin
    obtain ⟨d, s', hd, -, hrep⟩ := hfin
    obtain ⟨hc, hfT⟩ := raise_contents hr hf
    exact .inl ⟨d, s', hd, _, _, hrep, collapse_full T.1 hfT,
      (collapse_flatten T.1 T.2).trans hc, hasc⟩

theorem height_of_search (h : SearchTree s.readNode r E) : height s.readNode r = .error tooDeep ∨
      ∃ n t, height s.readNode r = .ok n ∧ n ≤ maxDepth ∧ Rep s.readNode n t r ∧ Full n t ∧
        flatten n t = E := by
  obtain ⟨n, t, hrep, hf, hE, -⟩ := h
  rw [height_rep hrep hf]
  by_cases hn : n ≤ maxDepth
  · exact .inr ⟨n, t, if_pos hn, hn, hrep, hf, hE⟩
  · exact .inl (if_neg hn)

include hinj in
theorem rebuildWith_represents (hrep : Rep s.readNode n t r) (hn : n ≤ maxDepth)
    (hasc : Ascending (flatten n t)) (key : Bytes) (change : Change) :
    (∃ root s', rebuildWith B r key change s = .ok (root, s') ∧
      Represents s'.readNode root (change.on key (flatten n t))) ∨
      rebuildWith B r key change s = .error tooTall := by
  rw [rebuildWith, entries_rep hrep hn, ok_bind, apply_eq_on change key hasc]
  exact build_represents hinj (ascending_on change key hasc) s

/-- The computation fails with one of the two height errors. -/
def TooHigh {α : Type} (x : Result α) : Prop := x = .error tooTall ∨ x = .error tooDeep

theorem TooHigh.bind {α β : Type} {x : Result α} (h : TooHigh x)
    (f : α → Result β) : TooHigh (x >>= f) := by
  rcases h with rfl | rfl
  · exact .inl rfl
  · exact .inr rfl

include hinj in
theorem insert_represents (h : Represents s.readNode root M) (key v : Bytes) :
    (∃ d s', insert B root key v s = .ok (d, s') ∧
      SearchTree s'.readNode d (OrdMap.insert key v M)) ∨ TooHigh (insert B root key v s) := by
  -- a build or a rebuild over entries that are not empty
  have hexpect : ∀ {E : List (Bytes × Bytes)} {x : Result (Option D × MemoryStore hash)},
      E ≠ [] → ((∃ root s', x = .ok (root, s') ∧ Represents s'.readNode root E) ∨
        x = .error tooTall) → (∃ d s', (x >>= expectRoot) = .ok (d, s') ∧
          SearchTree s'.readNode d E) ∨ TooHigh (x >>= expectRoot) := by
    rintro E x hne (⟨_ | d, s', rfl, hrep⟩ | rfl)
    · exact absurd hrep hne
    · exact .inl ⟨d, s', rfl, hrep⟩
    · exact .inr (.inl rfl)
  cases root with
  | none =>
    obtain rfl : M = [] := h
    exact hexpect (insert_ne_nil key v []) (build_represents hinj (List.pairwise_singleton _ _) s)
  | some r =>
    have hM := h.ascending
    rcases height_of_search h with hh | ⟨n, t, hh, hn, hrep, hf, rfl⟩
    · rw [insert, hh]
      exact .inr (.inr rfl)
    · rw [insert, hh, ok_bind]
      rcases mutate_represents (B := B) hinj hrep hf hM key (.set v) with
        hm | ⟨nodes, us, s', hm, hrun, hc, hfu⟩
      · rw [hm, ok_bind]
        exact hexpect (insert_ne_nil key v _) (rebuildWith_represents hinj hrep hn hM key (.set v))
      · rw [hm, ok_bind]
        have hc' : contents n us = OrdMap.insert key v (flatten n t) := hc
        have hne : us ≠ [] := fun hnil => insert_ne_nil key v (flatten n t) (by rw [← hc', hnil]; rfl)
        have hasc : Ascending (contents n us) := hc'.symm ▸ ascending_insert hM key v
        rw [← hc']
        rcases finish_represents (B := B) hinj hrun hne hfu hasc hn with hfin | hfin
        · exact .inl hfin
        · exact .inr (.inl hfin)

include hinj in
theorem remove_represents (h : SearchTree s.readNode r M) (key : Bytes) :
    (∃ root s', remove B r key s = .ok (root, s') ∧
      Represents s'.readNode root (OrdMap.erase key M)) ∨ TooHigh (remove B r key s) := by
  have hM := h.ascending
  rcases height_of_search h with hh | ⟨n, t, hh, hn, hrep, hf, rfl⟩
  · rw [remove, hh]
    exact .inr (.inr rfl)
  · rw [remove, hh, ok_bind]
    rcases mutate_represents (B := B) hinj hrep hf hM key .remove with
      hm | ⟨nodes, us, s', hm, hrun, hc, hfu⟩
    · rw [hm, ok_bind]
      rcases rebuildWith_represents (B := B) hinj hrep hn hM key .remove with hb | hb
      · exact .inl hb
      · exact .inr (.inl hb)
    · rw [hm, ok_bind]
      have hc' : contents n us = OrdMap.erase key (flatten n t) := hc
      rw [← hc']
      cases nodes with
      | nil =>
        cases hrun
        exact .inl ⟨none, s', rfl, rfl⟩
      | cons c cs =>
        have hne : us ≠ [] := fun hnil => by
          rw [hnil] at hrun
          cases hrun
        have hasc : Ascending (contents n us) := hc'.symm ▸ ascending_erase hM key
        dsimp only
        rcases finish_represents (B := B) hinj hrun hne hfu hasc hn with
          ⟨d, s'', hfin, hsearch⟩ | hfin
        · rw [hfin]
          exact .inl ⟨some d, s'', rfl, hsearch⟩
        · rw [hfin]
          exact .inr (.inl rfl)

include hinj in
/-- **One call** on a tree that represents a map gives a tree that represents the changed map. -/
theorem step_represents (h : Represents s.readNode root M) (op : Op) :
    (∃ root' s', step B (root, s) op = .ok (root', s') ∧ Represents s'.readNode root' (op.on M)) ∨
      TooHigh (step B (root, s) op) := by
  obtain ⟨key, change⟩ := op
  cases change with
  | set v =>
    rcases insert_represents (B := B) hinj h key v with ⟨d, s', hi, hs⟩ | hi
    · refine .inl ⟨some d, s', ?_, hs⟩
      change (insert B root key v s >>= _) = _
      rw [hi]
      rfl
    · exact .inr (hi.bind _)
  | remove =>
    cases root with
    | none =>
      obtain rfl : M = [] := h
      exact .inl ⟨none, s, rfl, rfl⟩
    | some r => exact remove_represents hinj h key

/-! ## Sequences of calls -/

include hinj in
theorem foldlM_represents (ops : List Op) (h : Represents s.readNode root M) :
    (∃ root' s', ops.foldlM (step B) (root, s) = .ok (root', s') ∧
      Represents s'.readNode root' (ops.foldl (fun m op => op.on m) M)) ∨
      TooHigh (ops.foldlM (step B) (root, s)) := by
  induction ops generalizing root M s with
  | nil => exact .inl ⟨root, s, rfl, h⟩
  | cons op ops ih =>
    rw [List.foldlM_cons, List.foldl_cons]
    rcases step_represents (B := B) hinj h op with ⟨root', s', hs, hr⟩ | hs
    · rw [hs, ok_bind]
      exact ih hr
    · exact .inr (hs.bind _)

include hinj in
/-- **Calls from the empty tree** give a tree of the map of the calls, or one of the height
errors. -/
theorem run_represents (ops : List Op) (s : MemoryStore hash) :
    (∃ root s', run B ops s = .ok (root, s') ∧ Represents s'.readNode root (mapOf ops)) ∨
      TooHigh (run B ops s) := foldlM_represents hinj ops rfl

theorem get_iff (hrep : Rep s.readNode n t r) (hf : Full n t) (hasc : Ascending (flatten n t)) :
    (∀ k, get s.readNode r k = .ok (OrdMap.get k (flatten n t))) ↔ n < maxDepth := by
  constructor
  · intro hall
    by_contra hn
    have hlast := hall (maxKey n t)
    rw [get, show maxDepth = 63 + 1 from rfl, getFrom_rep (maxKey n t) 63 hrep hf hasc,
      if_neg] at hlast
    · exact absurd hlast (by simp)
    · rintro (hle | hlt)
      · exact hn (Nat.lt_succ_of_le hle)
      · exact lt_irrefl _ hlt
  · intro hn k
    rw [get, show maxDepth = 63 + 1 from rfl, getFrom_rep k 63 hrep hf hasc,
      if_pos (.inl (Nat.le_of_lt_succ hn))]

include hinj in
/-- **Any sequence of calls.** It fails only with a height error; otherwise the entries are those of
the map, and lookups agree exactly when the height is below `maxDepth`. -/
theorem run_map_iff (ops : List Op) (s : MemoryStore hash) :
    (∀ e, run B ops s = .error e → e = tooTall ∨ e = tooDeep) ∧
    ∀ root s', run B ops s = .ok (root, s') → Ascending (mapOf ops) ∧
      (root = none → mapOf ops = []) ∧
      ∀ r ∈ root, height s'.readNode r = .error tooDeep ∨
        ∃ h ≤ maxDepth, height s'.readNode r = .ok h ∧ entries s'.readNode r = .ok (mapOf ops) ∧
          ((∀ k, get s'.readNode r k = .ok (OrdMap.get k (mapOf ops))) ↔ h < maxDepth) := by
  rcases run_represents (B := B) hinj ops s with ⟨root, s', hrun, hrep⟩ | hhigh
  · refine ⟨fun e he => absurd (hrun.symm.trans he) (by simp), fun root₁ s1 hrun1 => ?_⟩
    cases hrun.symm.trans hrun1
    refine ⟨hrep.ascending, fun hnone => ?_, fun r hr => ?_⟩
    · subst hnone
      exact hrep
    · obtain rfl : root = some r := hr
      rcases height_of_search hrep with hh | ⟨n, t, hh, hn, hrept, hf, hE⟩
      · exact .inl hh
      · have hasc : Ascending (flatten n t) := hE ▸ hrep.ascending
        rw [← hE]
        exact .inr ⟨n, hn, hh, entries_rep hrept hn, get_iff hrept hf hasc⟩
  · refine ⟨fun e he => ?_, fun root s' hok => ?_⟩
    · rcases hhigh with h | h
      · exact .inl (Except.error.inj (he.symm.trans h))
      · exact .inr (Except.error.inj (he.symm.trans h))
    · rcases hhigh with h | h
      · exact absurd (hok.symm.trans h) (by simp)
      · exact absurd (hok.symm.trans h) (by simp)

/-- Three insertions give a tree of two leaves, and each key is found. -/
theorem run_map_twoLeaves : ∃ s : FreeStore,
    run endsAtTwo [([3], .set [7]), ([1], .set []), ([2], .set [])] .new =
      .ok (some (twoLeaves [3] [([3], [7])]), s) ∧
    ∀ k, get s.readNode (twoLeaves [3] [([3], [7])]) k =
      .ok (OrdMap.get k [([1], []), ([2], []), ([3], [7])]) := by
  have heval : (run endsAtTwo [([3], .set [7]), ([1], .set []), ([2], .set [])] .new >>= fun r => do
      let n ← height (r.2 : FreeStore).readNode (twoLeaves [3] [([3], [7])])
      .ok (r.1, n)) = .ok (some (twoLeaves [3] [([3], [7])]), 1) := by decide +kernel
  obtain ⟨⟨root, s⟩, hrun, heval⟩ := of_bind heval
  obtain ⟨n, hn, heval⟩ := of_bind heval
  cases heval
  obtain ⟨-, -, h⟩ := (run_map_iff FreeDigest.ofNode_injective _ _).2 _ _ hrun
  refine ⟨s, hrun, ?_⟩
  rcases h _ rfl with hdeep | ⟨m, -, hm, -, hiff⟩
  · cases hn.symm.trans hdeep
  · cases hn.symm.trans hm
    exact hiff.mpr (by decide)

/-- Ends every node below level `64` at the key `1`. -/
def tallBoundary (key : Bytes) (level : ℕ) : Bool := key == [1] && decide (level < 64)

/-- Two insertions give a tree of height `64`, and the lookup of the first key fails. -/
theorem get_fails_at_maxDepth :
    (run tallBoundary [([1], .set []), ([2], .set [])] (MemoryStore.new : FreeStore) >>= fun r =>
      match r with
      | (some root, s) => do
        let h ← height s.readNode root
        let es ← entries s.readNode root
        .ok (h, es, (get s.readNode root [1]).toOption)
      | (none, _) => .ok (0, [], none)) = .ok (64, [([1], []), ([2], [])], none) := by
  decide +kernel

/-! ## Only insertions -/

variable (B) in
/-- The tree is the canonical one. -/
def Canon (read : D → Result (Node D)) (M : List (Bytes × Bytes)) (root : Option D) : Prop :=
  Ascending M ∧ (M = [] ∧ root = none ∨
    M ≠ [] ∧ ∃ r T, root = some r ∧ IsTop B M T ∧ Rep read T.1 T.2 r)

theorem Canon.unique {t : MemoryStore hash} {root' : Option D} (h : Canon B s.readNode M root)
    (h' : Canon B t.readNode M root') : root = root' := by
  obtain ⟨-, ⟨hM, rfl⟩ | ⟨hM, r, T, rfl, hT, hrep⟩⟩ := h <;>
    obtain ⟨-, ⟨hM', rfl⟩ | ⟨hM', r', T', rfl, hT', hrep'⟩⟩ := h'
  · rfl
  · exact absurd hM hM'
  · exact absurd hM' hM
  · rw [← hrep.digest, ← hrep'.digest, hT.unique hT']

variable {s' : MemoryStore hash}

include hinj in
theorem canon_of_build (hM : Ascending M) (h : build B M s = .ok (root, s')) :
    Canon B s'.readNode M root := by
  refine ⟨hM, ?_⟩
  cases root with
  | none => exact .inl ⟨represents_of_build hinj hM h, rfl⟩
  | some d =>
    obtain ⟨hne, T, hT, -, hrep⟩ := isTop_of_build hinj h
    exact .inr ⟨hne, d, T, rfl, hT, hrep⟩

include hinj in
theorem canon_insert {k v : Bytes} {d : D} (h : Canon B s.readNode M root)
    (hi : insert B root k v s = .ok (d, s')) :
    Canon B s'.readNode (OrdMap.insert k v M) (some d) := by
  obtain ⟨hasc, ⟨rfl, rfl⟩ | ⟨-, r, T, rfl, hT, hrep⟩⟩ := h
  · obtain ⟨⟨_ | d', s1⟩, hb, hd⟩ := of_bind hi <;> cases hd
    exact canon_of_build hinj (List.pairwise_singleton _ _) hb
  · obtain ⟨n, hh, hi⟩ := of_bind hi
    obtain ⟨rfl, hle⟩ := height_eq_ok hrep hT.full hh
    obtain ⟨nodes, s2, hmut, hrun⟩ := mutate_set hinj hasc hT hrep k v
    rw [hmut, ok_bind] at hi
    have hne := insert_ne_nil k v M
    have hfin := finish_rep (B := B) hinj hrun (fun he => hne (forest_eq_nil.mp he)) hle
    cases hr : raise B (255 - T.1) T.1 (forest B T.1 (OrdMap.insert k v M)) with
    | none =>
      rw [hr] at hfin
      cases hfin.symm.trans hi
    | some T' =>
      rw [hr] at hfin
      obtain ⟨d', s3, hfin, -, hrep'⟩ := hfin
      cases hfin.symm.trans hi
      exact ⟨ascending_insert hasc k v,
        .inr ⟨hne, d, _, rfl, collapse_of_raise hne hr, hrep'⟩⟩

def insertions (l : List (Bytes × Bytes)) : List Op := l.map fun e => (e.1, .set e.2)

include hinj in
theorem canon_foldlM (l : List (Bytes × Bytes)) {root' : Option D} (h : Canon B s.readNode M root)
    (hrun : (insertions l).foldlM (step B) (root, s) = .ok (root', s')) :
    Canon B s'.readNode ((insertions l).foldl (fun m op => op.on m) M) root' := by
  induction l generalizing root M s with
  | nil =>
    cases hrun
    exact h
  | cons e l ih =>
    obtain ⟨st, hstep, hrun⟩ := of_bind hrun
    obtain ⟨⟨d, s1⟩, hi, hstep⟩ := of_bind hstep
    cases hstep
    exact ih (canon_insert hinj h hi) hrun

include hinj in
/-- **Insertions that lead to the same map give the same root**, which is that of a build. -/
theorem insertions_root {l : List (Bytes × Bytes)} (h : run B (insertions l) s = .ok (root, s')) :
    (∀ l' (t : MemoryStore hash) root' t', mapOf (insertions l') = mapOf (insertions l) →
      run B (insertions l') t = .ok (root', t') → root' = root) ∧
    ∀ (t : MemoryStore hash) root' t',
      build B (mapOf (insertions l)) t = .ok (root', t') → root' = root := by
  have hnil : ∀ t : MemoryStore hash, Canon B t.readNode [] none := fun _ => ⟨.nil, .inl ⟨rfl, rfl⟩⟩
  have hl : Canon B s'.readNode (mapOf (insertions l)) root := canon_foldlM hinj l (hnil s) h
  refine ⟨fun l' t root' t' hmap h' => ?_, fun t root' t' hb => ?_⟩
  · rw [← hmap] at hl
    exact (canon_foldlM hinj l' (hnil t) h').unique hl
  · exact (canon_of_build hinj hl.1 hb).unique hl

theorem insertions_root_leaf : ∃ root t t', let run := run fun _ _ => false
    run (insertions [([1], []), ([2], [])]) (.new : FreeStore) = .ok (root, t) ∧
      run (insertions [([2], []), ([1], [])]) .new = .ok (root, t') := by
  have hok : ∀ l ∈ [[([1], []), ([2], [])], [([2], []), ([1], [])]], (run (fun _ _ => false)
    (insertions l) (.new : FreeStore) >>= fun r => .ok r.1.isSome) = .ok true := by decide +kernel
  obtain ⟨r, h, -⟩ := of_bind (hok _ (.head _))
  obtain ⟨r', h', -⟩ := of_bind (hok _ (.tail _ (.head _)))
  have heq := (insertions_root FreeDigest.ofNode_injective h).1 _ _ _ _ (by decide) h'
  exact ⟨_, _, r'.2, h, heq ▸ h'⟩

end UldrenLoom.Prolly
