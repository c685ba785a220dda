import UldrenLoom.Lib.Lists
import UldrenLoom.Vcs.Tree

/-!
# Storing one directory

What `putDirectory` stores is read back by `collectDirEntries`, flat or sharded.

* **`putDirectory_spec`**: a directory is stored exactly if its names differ and it needs at most `254`
  levels, and is found again under the levels it needs; **`Below.collect`**: by a walk that may go as
  deep.
-/

namespace UldrenLoom.Vcs

open ByteString Fallible Effect Chunk Object List

variable {D : Type} [LinearOrder D] {hash : Stored D → D} {B : Bytes → ℕ → Bool}

/-! ## Effects on the store -/

@[simp] theorem exec_putObject (o : Object D) (s : ContentStore hash) :
    exec (putObject o) s = (.ok (hash (.object o)), s.put (.object o)) := rfl

/-- The error of a directory with more shard levels than can be counted. -/
def tooTall : LoomError := .corrupt "sharded directory too tall"

/-- The error of a walk into more shard levels than allowed. -/
def tooDeep : LoomError := .corrupt "directory sharded deeper than the maximum"

variable [ToString D]

/-- The entry is a shard entry for the stored tree of a run. -/
def Flushed (s : ContentStore hash) (run : List (TreeEntry D)) (e : TreeEntry D) : Prop :=
  e.kind = .treeShard ∧ run.getLast?.map TreeEntry.name = some e.name ∧
    getObject s e.target = .ok (.tree run)

variable {s t : ContentStore hash}

theorem Flushed.mono (h : s ≤ t) {run : List (TreeEntry D)} {e : TreeEntry D}
    (hf : Flushed s run e) : Flushed t run e :=
  ⟨hf.1, hf.2.1, getObject_mono h hf.2.2⟩

variable (hinj : Function.Injective hash)

include hinj in
theorem flushShardNode_spec {run : List (TreeEntry D)} (hc : Canonical run) (hn : run ≠ [])
    (s : ContentStore hash) :
    ∃ e s', exec (flushShardNode run) s = (.ok e, s') ∧ s ≤ s' ∧ Flushed s' run e := by
  have hmake : makeTree run = .ok (.tree run) := by
    rw [makeTree_of_nodup hc.nodup, sortEntries_of_canonical hc]
  have hdec : decode (.object (.tree run)) = .ok (.tree run) := if_pos hc
  obtain ⟨x, hx⟩ := Option.ne_none_iff_exists'.mp (mt List.getLast?_eq_none_iff.mp hn)
  refine ⟨⟨x.name, .treeShard, hash (.object (.tree run)), dirMode⟩, s.put (.object (.tree run)), ?_,
    ContentStore.le_put _ _, rfl, by rw [hx]; rfl, getObject_put hinj s hdec⟩
  rw [flushShardNode, hmake, hx]
  rfl

include hinj in
/-- **The chunking loop stores a shard node for every run.** -/
theorem chunkEntries_spec (level : ℕ) (run xs : List (TreeEntry D)) (s : ContentStore hash)
    (hc : Canonical (run ++ xs)) (hrun : ∀ x ∈ run, B x.name.bytes level = false) :
    ∃ ps s', exec (chunkEntries B level run xs) s = (.ok ps, s') ∧ s ≤ s' ∧
      List.Forall₂ (Flushed s') (chunk (fun e => B e.name.bytes level) (run ++ xs)) ps := by
  induction xs generalizing run s with
  | nil =>
    rw [append_nil] at hc ⊢
    rw [chunkEntries]
    by_cases hn : run = []
    · subst hn
      exact ⟨[], s, rfl, le_rfl, .nil⟩
    · obtain ⟨e, s', he, hle, hf⟩ := flushShardNode_spec hinj hc hn s
      have hr : Run (fun e : TreeEntry D => B e.name.bytes level) run :=
        ⟨hn, fun x hx => hrun x (mem_of_mem_dropLast hx)⟩
      refine ⟨[e], s', ?_, hle, ?_⟩
      · rw [if_neg hn, exec_bind_of_ok he]
        rfl
      · rw [chunk_run hr]
        exact .cons hf .nil
  | cons x xs ih =>
    have happ : run ++ x :: xs = (run ++ [x]) ++ xs := by simp
    rw [chunkEntries]
    by_cases hx : B x.name.bytes level = true
    · -- a boundary closes the run
      rw [happ] at hc ⊢
      have hr : Run (fun e : TreeEntry D => B e.name.bytes level) (run ++ [x]) :=
        ⟨by simp, fun y hy => hrun y (by simpa using hy)⟩
      have hcl : Closed (fun e : TreeEntry D => B e.name.bytes level) (run ++ [x]) := by
        simpa [Closed] using hx
      obtain ⟨e, s1, he, hle, hf⟩ := flushShardNode_spec hinj
        (hc.sublist (sublist_append_left _ _)) (by simp) s
      obtain ⟨ps, s2, hps, hle', hall⟩ := ih [] s1 (hc.sublist (sublist_append_right _ _)) (by simp)
      refine ⟨e :: ps, s2, ?_, hle.trans hle', ?_⟩
      · rw [if_pos hx, exec_bind_of_ok he, exec_bind_of_ok hps]
        rfl
      · rw [chunk_append hcl, chunk_run hr]
        exact .cons (hf.mono hle') hall
    · rw [if_neg hx]
      rw [happ] at hc ⊢
      exact ih (run ++ [x]) s hc (forall_mem_append.mpr ⟨hrun, by simpa using hx⟩)

variable {xs ps es : List (TreeEntry D)}

theorem names_of_flushed {p : Path → Bool}
    (h : List.Forall₂ (Flushed s) (chunk (fun e => p e.name) xs) ps) :
    ps.map TreeEntry.name = cuts p (xs.map TreeEntry.name) := by
  have hlast : ((chunk (fun e : TreeEntry D => p e.name) xs).map List.getLast?).map
      (Option.map TreeEntry.name) = ps.map fun e => some e.name := by
    rw [map_map, ← forall₂_eq_eq_eq, forall₂_map_left_iff, forall₂_map_right_iff]
    exact h.imp fun _ _ hf => hf.2.1
  rw [map_getLast?_chunk, map_map] at hlast
  have hsome : (cuts p (xs.map TreeEntry.name)).map some = (ps.map TreeEntry.name).map some := by
    rw [cuts_map, map_map, map_map]
    exact hlast
  exact (map_injective_iff.mpr (Option.some_injective _) hsome).symm

/-! ## Reading shards -/

/-- The entries found below a digest under `depth` levels of shard nodes. -/
def Below (s : ContentStore hash) : (depth : ℕ) → List (TreeEntry D) → D → Prop
  | 0, es, d => getObject s d = .ok (.tree es) ∧ ∀ e ∈ es, e.kind ≠ .treeShard
  | depth + 1, es, d => ∃ ps parts, getObject s d = .ok (.tree ps) ∧ ps ≠ [] ∧
      List.Forall₂ (fun part p => p.kind = .treeShard ∧ Below s depth part p.target) parts ps ∧
      parts.flatten = es

/-- The shard entries have the entries of a directory below them, all at one depth. -/
def Covers (s : ContentStore hash) (depth : ℕ) (ps es : List (TreeEntry D)) : Prop :=
  ∃ parts, List.Forall₂ (fun part p => p.kind = .treeShard ∧ Below s depth part p.target) parts ps ∧
    parts.flatten = es

variable {depth : ℕ}

theorem Below.mono (hle : s ≤ t) {d : D} (h : Below s depth es d) : Below t depth es d := by
  induction depth generalizing es d with
  | zero => exact ⟨getObject_mono hle h.1, h.2⟩
  | succ depth ih =>
    obtain ⟨ps, parts, hd, hn, hall, rfl⟩ := h
    exact ⟨ps, parts, getObject_mono hle hd, hn, hall.imp fun _ _ hp => ⟨hp.1, ih hp.2⟩, rfl⟩

theorem Covers.mono {s t : ContentStore hash} (hle : s ≤ t) {depth : ℕ} {ps es : List (TreeEntry D)}
    (h : Covers s depth ps es) : Covers t depth ps es := by
  obtain ⟨parts, hall, rfl⟩ := h
  exact ⟨parts, hall.imp fun _ _ hp => ⟨hp.1, hp.2.mono hle⟩, rfl⟩

/-- **A walk finds the entries exactly if it may go deep enough.** -/
theorem Below.collect {d : D} (h : Below s depth es d) (left : ℕ) :
    collectDirEntries s left d = if depth < left then .ok es else .error tooDeep := by
  induction left generalizing depth es d with
  | zero => rfl
  | succ left ih =>
    cases depth with
    | zero =>
      rw [collectDirEntries, h.1, ok_bind, if_pos (Nat.succ_pos left)]
      exact if_pos (by simpa using h.2)
    | succ depth =>
      obtain ⟨ps, parts, hd, hn, hall, rfl⟩ := h
      have hkind : ∃ p ∈ ps, p.kind = .treeShard := by
        cases hall with
        | nil => exact absurd rfl hn
        | cons hp _ => exact ⟨_, mem_cons_self .., hp.1⟩
      rw [collectDirEntries, hd, ok_bind]
      refine (if_neg (by simpa using hkind)).trans ?_
      split_ifs with hlt
      · rw [← flatMap_id]
        refine concatMap_of_forall₂ (hall.imp fun part p hp => ?_)
        rw [if_pos hp.1, ih hp.2, if_pos (by omega)]
        rfl
      · -- already the first child is too deep
        cases hall with
        | nil => exact absurd rfl hn
        | cons hp _ =>
          rw [concatMap_cons, if_pos hp.1, ih hp.2, if_neg (by omega)]
          rfl

theorem covers_leaves {p : TreeEntry D → Bool} (h : List.Forall₂ (Flushed s) (chunk p xs) ps)
    (hxs : ∀ e ∈ xs, e.kind ≠ .treeShard) : Covers s 0 ps xs := by
  refine ⟨chunk p xs, ?_, flatten_chunk xs⟩
  have hmem : ∀ run ∈ chunk p xs, ∀ e ∈ run, e.kind ≠ .treeShard := by
    intro run hrun e he
    refine hxs e ?_
    rw [← flatten_chunk (p := p) xs]
    exact mem_flatten.mpr ⟨run, hrun, he⟩
  refine List.Forall₂.imp ?_ ((forall₂_and_left (p := fun run => ∀ e ∈ run, e.kind ≠ .treeShard)
    _ _).mpr ⟨hmem, h⟩)
  intro run q hq
  exact ⟨hq.2.1, hq.2.2.2, hq.1⟩

theorem covers_level {p : TreeEntry D → Bool} (hx : Covers s depth xs es)
    (h : List.Forall₂ (Flushed s) (chunk p xs) ps) : Covers s (depth + 1) ps es := by
  obtain ⟨parts, hparts, rfl⟩ := hx
  rw [← flatten_chunk (p := p) xs] at hparts
  obtain ⟨groups, hgroups, rfl⟩ := Lists.forall₂_flatten hparts
  refine ⟨groups.map List.flatten, ?_, by rw [flatten_flatten]⟩
  rw [forall₂_map_left_iff]
  have hrun : ∀ run ∈ chunk p xs, run ≠ [] := fun run hrun => ((chunked_chunk xs).run hrun).1
  have hboth := (forall₂_and_left (p := fun run => run ≠ []) _ _).mpr ⟨hrun, h⟩
  refine List.Forall₂.imp ?_ (Lists.forall₂_trans hgroups hboth)
  rintro group q ⟨run, hg, hne, hf⟩
  exact ⟨hf.1, run, group, hf.2.2, hne, hg, rfl⟩

/-! ## Storing a directory -/

omit [LinearOrder D] [ToString D] in
theorem canonical_of_names (hx : Canonical xs)
    (h : (ps.map TreeEntry.name).Sublist (xs.map TreeEntry.name)) : Canonical ps :=
  pairwise_map.mp (List.Pairwise.sublist h (pairwise_map.mpr hx))

theorem shardRoot_spec (h : Covers s depth ps es) (hn : ps ≠ []) (hl : ps.length ≤ 1) :
    ∃ d, exec (shardRoot ps) s = (.ok d, s) ∧ Below s depth es d := by
  obtain ⟨parts, hall, rfl⟩ := h
  cases hall with
  | nil => exact absurd rfl hn
  | cons hp hrest =>
    cases hrest with
    | nil => exact ⟨_, rfl, by simpa using hp.2⟩
    | cons _ _ => simp at hl

include hinj in
/-- **Adding interior levels** gives a root, unless the names need more levels than are left. -/
theorem shardLevels_spec (left : ℕ) (hc : Canonical ps) (hn : ps ≠ []) (s : ContentStore hash)
    (h : Covers s depth ps es) :
    ∃ s', s ≤ s' ∧ if shardRounds B left (ps.map TreeEntry.name) ≤ left then
        ∃ d, exec (shardLevels B left ps) s = (.ok d, s') ∧
          Below s' (depth + shardRounds B left (ps.map TreeEntry.name)) es d
      else exec (shardLevels B left ps) s = (.error tooTall, s') := by
  induction left generalizing depth ps s with
  | zero =>
    rw [shardRounds, shardLevels, length_map]
    by_cases hl : ps.length ≤ 1
    · obtain ⟨d, hd, hb⟩ := shardRoot_spec h hn hl
      refine ⟨s, le_rfl, ?_⟩
      rw [if_pos hl, if_pos le_rfl, if_pos hl]
      exact ⟨d, hd, hb⟩
    · obtain ⟨qs, s', hqs, hle, -⟩ := chunkEntries_spec (B := B) hinj 255 [] ps s hc (by simp)
      refine ⟨s', hle, ?_⟩
      rw [if_neg hl, if_neg (by omega), if_neg hl, exec_bind_of_ok hqs]
      rfl
  | succ left ih =>
    rw [shardRounds, shardLevels, length_map]
    by_cases hl : ps.length ≤ 1
    · obtain ⟨d, hd, hb⟩ := shardRoot_spec h hn hl
      refine ⟨s, le_rfl, ?_⟩
      rw [if_pos hl, if_pos (Nat.zero_le _), if_pos hl]
      exact ⟨d, hd, hb⟩
    · obtain ⟨qs, s1, hqs, hle, hall⟩ :=
        chunkEntries_spec (B := B) hinj (254 - left) [] ps s hc (by simp)
      rw [nil_append] at hall
      have hnames := names_of_flushed (p := fun n : Path => B n.bytes (254 - left)) hall
      have hqn : qs ≠ [] := by
        intro hq
        rw [hq] at hnames
        exact cuts_ne_nil (by simpa using hn) hnames.symm
      obtain ⟨s2, hle', hih⟩ := ih (canonical_of_names hc (hnames ▸ cuts_sublist _ _)) hqn s1
        (covers_level (h.mono hle) hall)
      refine ⟨s2, hle.trans hle', ?_⟩
      rw [if_neg hl, if_neg hl, exec_bind_of_ok hqs, ← hnames]
      split_ifs at hih ⊢ with h1 h2
      · obtain ⟨d, hd, hb⟩ := hih
        exact ⟨d, hd, by rwa [Nat.add_right_comm, Nat.add_assoc] at hb⟩
      · omega
      · omega
      · exact hih

omit [LinearOrder D] [ToString D] in
theorem names_sortEntries (es : List (TreeEntry D)) :
    (sortEntries es).map TreeEntry.name = (es.map TreeEntry.name).insertionSort (· ≤ ·) := by
  rw [← forall₂_eq_eq_eq, forall₂_map_left_iff]
  refine Lists.forall₂_insertionSort (fun a a' b b' h h' => ?_) ?_
  · rw [h, h']
  · rw [forall₂_map_right_iff]
    exact forall₂_same.mpr fun _ _ => rfl

omit [LinearOrder D] [ToString D] in
theorem length_sortEntries (es : List (TreeEntry D)) : (sortEntries es).length = es.length :=
  (perm_sortEntries es).length_eq

include hinj in
/-- **A directory is stored** unless two entries share a name or it needs more than `254` levels. -/
theorem putDirectory_spec (hk : ∀ e ∈ es, e.kind ≠ .treeShard) (s : ContentStore hash) :
    Settles (putDirectory B es) ((es.map TreeEntry.name).Nodup ∧
        nameDepth B ((sortEntries es).map TreeEntry.name) ≤ 254)
      (fun s' d => Below s' (nameDepth B ((sortEntries es).map TreeEntry.name)) (sortEntries es) d)
      s := by
  by_cases hnd : (es.map TreeEntry.name).Nodup
  · have hmake := makeTree_of_nodup hnd
    have hc : Canonical (sortEntries es) := canonical_sortEntries.mpr hnd
    have hks : ∀ e ∈ sortEntries es, e.kind ≠ .treeShard := fun e he =>
      hk e ((perm_sortEntries es).mem_iff.mp he)
    rw [nameDepth, length_map, length_sortEntries, putDirectory, hmake]
    by_cases hl : es.length > dirShardThreshold
    · rw [if_pos hl, if_pos hl, putShardedTree, hmake]
      obtain ⟨ps, s1, hps, hle, hall⟩ :=
        chunkEntries_spec (B := B) hinj 0 [] (sortEntries es) s hc (by simp)
      rw [nil_append] at hall
      have hnames := names_of_flushed (p := fun n : Path => B n.bytes 0) hall
      have hpn : ps ≠ [] := by
        intro hp
        rw [hp] at hnames
        refine cuts_ne_nil ?_ hnames.symm
        rw [ne_eq, map_eq_nil_iff, ← length_eq_zero_iff, length_sortEntries]
        omega
      obtain ⟨s2, hle', hlev⟩ := shardLevels_spec (B := B) hinj 254
        (canonical_of_names hc (hnames ▸ cuts_sublist _ _)) hpn s1 (covers_leaves hall hks)
      refine ⟨s2, hle.trans hle', ?_⟩
      rw [← hnames, exec_bind_of_ok (exec_lift _ s), exec_bind_of_ok hps]
      rw [Nat.zero_add] at hlev
      split_ifs at hlev with hr
      · exact .inl ⟨⟨hnd, hr⟩, hlev⟩
      · exact .inr ⟨fun h => hr h.2, tooTall, hlev⟩
    · rw [if_neg hl, if_neg hl]
      exact ⟨_, ContentStore.le_put s (.object (.tree (sortEntries es))), .inl
        ⟨⟨hnd, Nat.zero_le _⟩, _, rfl, getObject_put hinj s (decode_sortEntries hnd), hks⟩⟩
  · -- a name given twice is found before anything is stored
    have hmake : ∃ e, makeTree es = .error e := by
      cases h : makeTree es with
      | error e => exact ⟨e, rfl⟩
      | ok o => exact absurd (makeTree_ok_iff.mp h).1 hnd
    obtain ⟨e, he⟩ := hmake
    refine ⟨s, le_rfl, .inr ⟨fun h => hnd h.1, e, ?_⟩⟩
    rw [putDirectory, putShardedTree, he]
    split_ifs
    · rfl
    · rfl

end UldrenLoom.Vcs
