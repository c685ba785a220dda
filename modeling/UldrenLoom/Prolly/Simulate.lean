import UldrenLoom.Prolly.Represent

/-!
# The writing functions on level trees

* **`digestOf_injective`**: the digest determines the tree.
* **`build_rep`**, **`mutate_rep`**, **`finish_rep`**: `build` raises the leaves, `mutate` is `edit`,
  `finish` raises and collapses.
-/

set_option linter.unusedSectionVars false

namespace UldrenLoom.Prolly

open ByteString Fallible LevelTree Chunk OrdMap List

variable {D : Type} [ToString D] {hash : Node D → D}

/-! ## Growing stores -/

instance : Preorder (MemoryStore hash) where
  le s s' := ∀ d n, s.objects d = some n → s'.objects d = some n
  le_refl _ _ _ h := h
  le_trans _ _ _ h h' d n hd := h' d n (h d n hd)

variable {s : MemoryStore hash}

theorem readNode_eq_ok {d : D} {n : Node D} : s.readNode d = .ok n ↔ s.objects d = some n := by
  unfold MemoryStore.readNode
  cases s.objects d <;> simp

theorem readNode_mono {s' : MemoryStore hash} (h : s ≤ s') (d : D) (n : Node D)
    (hd : s.readNode d = .ok n) : s'.readNode d = .ok n :=
  readNode_eq_ok.mpr (h d n (readNode_eq_ok.mp hd))

section Put

variable [DecidableEq D]

theorem le_put (n : Node D) (s : MemoryStore hash) : s ≤ (s.put n).2 := by
  intro d m h
  change (if d = hash n then some ((s.objects d).getD n) else s.objects d) = some m
  rw [h]
  split_ifs <;> rfl

theorem objects_put (hinj : Function.Injective hash) (n : Node D) (s : MemoryStore hash) :
    (s.put n).2.objects (s.put n).1 = some n := by
  change (if hash n = hash n then some ((s.objects (hash n)).getD n) else _) = some n
  rw [if_pos rfl]
  cases h : s.objects (hash n) with
  | none => rfl
  | some m => rw [Option.getD_some, hinj (s.addressed h)]

end Put

/-! ## Digests of trees -/

variable (hash) in
/-- The digest of a level tree. -/
def digestOf : (n : ℕ) → Tree Bytes Bytes n → D
  | 0, es => hash (.leaf es)
  | n + 1, ts => hash (.internal (List.map (fun t => (maxKey n t, digestOf n t)) ts))

theorem Rep.digest {s : MemoryStore hash} : ∀ {n : ℕ} {t : Tree Bytes Bytes n} {d : D},
    Rep s.readNode n t d → digestOf hash n t = d
  | 0, _, _, h => s.addressed (readNode_eq_ok.mp h)
  | n + 1, ts, d, ⟨ch, hd, hch⟩ => by
    have hmap : List.map (fun t => (maxKey n t, digestOf hash n t)) ts = ch := by
      clear hd
      induction hch with
      | nil => rfl
      | cons hc _ ih => rw [map_cons, ih, ← hc.1, hc.2.digest]
    rw [digestOf, hmap]
    exact s.addressed (readNode_eq_ok.mp hd)

/-- **The digest determines the tree**, if digests do not collide. -/
theorem digestOf_injective (hinj : Function.Injective hash) : ∀ {n m : ℕ} {t : Tree Bytes Bytes n}
    {u : Tree Bytes Bytes m}, Full n t → Full m u → digestOf hash n t = digestOf hash m u →
      (⟨n, t⟩ : Top Bytes Bytes) = ⟨m, u⟩
  | 0, 0, es, fs, _, _, h => by
    rw [Node.leaf.inj (hinj h)]
  | 0, _ + 1, _, _, _, _, h => absurd (hinj h) nofun
  | _ + 1, 0, _, _, _, _, h => absurd (hinj h) nofun
  | n + 1, m + 1, ts, us, ⟨hne, hf⟩, ⟨_, hf'⟩, h => by
    have hmap := Node.internal.inj (hinj h)
    obtain rfl : n = m := by
      obtain ⟨t, ts, rfl⟩ := exists_cons_of_ne_nil hne
      cases us with
      | nil => exact absurd hmap (cons_ne_nil _ _)
      | cons u us =>
        have hd := (Prod.mk.inj (List.cons.inj hmap).1).2
        exact congrArg Sigma.fst (digestOf_injective hinj (hf t (by simp)) (hf' u (by simp)) hd)
    have hts : ts = us := Lists.eq_of_map_eq (fun t ht u hu he => eq_of_heq (Sigma.mk.inj
      (digestOf_injective hinj (hf t ht) (hf' u hu) (Prod.mk.inj he).2)).2) hmap
    rw [hts]

/-! ## Chunking -/

section Chunking

variable [DecidableEq D] {B : Bytes → ℕ → Bool} (hinj : Function.Injective hash)

/-- The child stands for the node of a run. -/
def Flushed {α : Type} (node : List (Bytes × α) → Node D) (s : MemoryStore hash)
    (run : List (Bytes × α)) (c : Bytes × D) : Prop :=
  c.1 = maxKeyOf run ∧ s.objects c.2 = some (node run)

theorem Flushed.mono {α : Type} {node : List (Bytes × α) → Node D} {s s' : MemoryStore hash}
    (h : s ≤ s') {run : List (Bytes × α)} {c : Bytes × D} (hc : Flushed node s run c) :
    Flushed node s' run c := ⟨hc.1, h _ _ hc.2⟩

include hinj in
/-- **The chunking loop cuts the list into runs and stores a node for each.** -/
theorem chunkRun_spec {α : Type} (node : List (Bytes × α) → Node D) (level : ℕ)
    (xs run : List (Bytes × α)) (s : MemoryStore hash) (hrun : ∀ x ∈ run, B x.1 level = false) :
    s ≤ (chunkRun B node level run xs s).2 ∧
      List.Forall₂ (Flushed node (chunkRun B node level run xs s).2)
        (chunk (fun x => B x.1 level) (run ++ xs)) (chunkRun B node level run xs s).1 := by
  induction xs generalizing run s with
  | nil =>
    rw [chunkRun, append_nil]
    by_cases hn : run = []
    · subst hn
      exact ⟨le_rfl, .nil⟩
    · have hr : Run (fun x : Bytes × α => B x.1 level) run :=
        ⟨hn, fun x hx => hrun x (mem_of_mem_dropLast hx)⟩
      rw [if_neg (by simpa using hn), chunk_run hr]
      exact ⟨le_put _ s, .cons ⟨rfl, objects_put hinj _ s⟩ .nil⟩
  | cons x xs ih =>
    rw [chunkRun]
    by_cases hx : B x.1 level = true
    · -- a boundary closes the run
      have hr : Run (fun x : Bytes × α => B x.1 level) (run ++ [x]) :=
        ⟨by simp, fun y hy => hrun y (by simpa using hy)⟩
      have hcl : Closed (fun x : Bytes × α => B x.1 level) (run ++ [x]) := by
        simpa [Closed] using hx
      obtain ⟨hle, hall⟩ := ih [] (s.put (node (run ++ [x]))).2 (by simp)
      rw [if_pos hx, show run ++ x :: xs = (run ++ [x]) ++ xs by simp, chunk_append hcl, chunk_run hr]
      exact ⟨(le_put _ s).trans hle, .cons (Flushed.mono hle ⟨rfl, objects_put hinj _ s⟩) hall⟩
    · rw [if_neg hx, show run ++ x :: xs = (run ++ [x]) ++ xs by simp]
      refine ih (run ++ [x]) s fun y hy => ?_
      rcases mem_append.mp hy with hy | hy
      · exact hrun y hy
      · rw [mem_singleton.mp hy]
        simpa using hx

include hinj in
theorem chunkLeaves_rep (es : List (Bytes × Bytes)) (s : MemoryStore hash) :
    s ≤ (chunkLeaves B es s).2 ∧
      RepRun (chunkLeaves B es s).2.readNode 0 (forest B 0 es) (chunkLeaves B es s).1 := by
  obtain ⟨hle, hall⟩ := chunkRun_spec (B := B) hinj Node.leaf 0 es [] s (by simp)
  exact ⟨hle, hall.imp fun _ _ hc => ⟨hc.1, readNode_eq_ok.mpr hc.2⟩⟩

include hinj in
theorem chunkInternal_rep {n : ℕ} {ts : List (Tree Bytes Bytes n)} {nodes : ChildRun D}
    {s : MemoryStore hash} (h : RepRun s.readNode n ts nodes) :
    s ≤ (chunkInternal B (n + 1) nodes s).2 ∧
      RepRun (chunkInternal B (n + 1) nodes s).2.readNode (n + 1) (chunkTrees B n ts)
        (chunkInternal B (n + 1) nodes s).1 := by
  obtain ⟨hle, hall⟩ := chunkRun_spec (B := B) hinj Node.internal (n + 1) nodes [] s (by simp)
  refine ⟨hle, ?_⟩
  have hcut : List.Forall₂ (RepRun s.readNode n) (chunkTrees B n ts)
      (chunk (fun x => B x.1 (n + 1)) nodes) := forall₂_chunk (fun t c hc => by rw [hc.1]) h
  refine (Lists.forall₂_trans hcut hall).imp fun us c hc => ?_
  obtain ⟨run, hus, hck, hcd⟩ := hc
  exact ⟨hck.trans hus.maxKeyOf, run, readNode_eq_ok.mpr hcd, hus.mono (readNode_mono hle)⟩

end Chunking

/-! ## Roots -/

section Roots

variable [DecidableEq D] {B : Bytes → ℕ → Bool} (hinj : Function.Injective hash)

/-- The tree has more levels than a byte can count. -/
def tooTall : LoomError := .corrupt "prolly tree too tall"

variable {n : ℕ} {nodes : ChildRun D} {s : MemoryStore hash}

theorem RepRun.singleton {t : Tree Bytes Bytes n} (h : RepRun s.readNode n [t] nodes) :
    ∃ c, nodes = [c] ∧ Rep s.readNode n t c.2 := by
  obtain ⟨c, ch, hc, hnil, rfl⟩ := forall₂_cons_left_iff.mp h
  cases hnil
  exact ⟨c, rfl, hc.2⟩

include hinj in
theorem addLevels_rep (left : ℕ) {n : ℕ} {ts : List (Tree Bytes Bytes n)} {nodes : ChildRun D}
    {s : MemoryStore hash} (h : RepRun s.readNode n ts nodes) (hne : ts ≠ []) :
    match raise B left n ts with
    | some T => ∃ c s', addLevels B left n nodes s = .ok ([c], s') ∧ s ≤ s' ∧
        Rep s'.readNode T.1 T.2 c.2
    | none => addLevels B left n nodes s = .error tooTall := by
  by_cases h1 : ts.length = 1
  · obtain ⟨t, rfl⟩ := length_eq_one_iff.mp h1
    obtain ⟨c, rfl, hc⟩ := h.singleton
    rw [raise_singleton]
    exact ⟨c, s, by cases left <;> rfl, le_rfl, hc⟩
  · have hlen : ¬ nodes.length ≤ 1 := by
      rw [← h.length_eq]
      have := length_pos_iff.mpr hne
      omega
    cases left with
    | zero =>
      rw [raise_zero h1, addLevels, if_neg hlen]
      rfl
    | succ left =>
      obtain ⟨hle, hrep⟩ := chunkInternal_rep (B := B) hinj h
      have ih := addLevels_rep left hrep (chunk_ne_nil hne)
      rw [raise_succ h1, addLevels, if_neg hlen]
      cases hr : raise B left (n + 1) (chunkTrees B n ts) with
      | none =>
        rw [hr] at ih
        exact ih
      | some T =>
        rw [hr] at ih
        obtain ⟨c, s', hadd, hle', hT⟩ := ih
        exact ⟨c, s', hadd, hle.trans hle', hT⟩

theorem collapseRoot_wide {d : D} {ch : ChildRun D} (hd : s.readNode d = .ok (.internal ch))
    (h : ch.length ≠ 1) (left : ℕ) : collapseRoot s (left + 1) d = .ok d := by
  rw [collapseRoot, hd, ok_bind]
  match ch, h with
  | [], _ => rfl
  | _ :: _ :: _, _ => rfl

theorem collapseRoot_rep {s : MemoryStore hash} : ∀ {n : ℕ} {t : Tree Bytes Bytes n} {d : D}
    (left : ℕ), n < left → Rep s.readNode n t d → ∃ d', collapseRoot s left d = .ok d' ∧
        Rep s.readNode (collapse n t).1 (collapse n t).2 d'
  | 0, es, d, left + 1, _, h => by
    refine ⟨d, ?_, h⟩
    rw [collapseRoot, show s.readNode d = .ok (.leaf es) from h]
    rfl
  | n + 1, ts, d, left + 1, hlt, ⟨ch, hd, hch⟩ => by
    by_cases h1 : ts.length = 1
    · obtain ⟨t, rfl⟩ := length_eq_one_iff.mp h1
      obtain ⟨c, rfl, hc⟩ := RepRun.singleton hch
      rw [collapseRoot, hd, ok_bind, collapse_singleton]
      exact collapseRoot_rep left (Nat.lt_of_succ_lt_succ hlt) hc
    · rw [collapse_of_length h1]
      exact ⟨d, collapseRoot_wide hd (by rwa [← hch.length_eq]) left, ch, hd, hch⟩

include hinj in
/-- **Finishing raises and collapses**, or fails where raising does. -/
theorem finish_rep {us : List (Tree Bytes Bytes n)} (h : RepRun s.readNode n us nodes)
    (hne : us ≠ []) (hn : n ≤ maxDepth) :
    match raise B (255 - n) n us with
    | some T => ∃ d s', finish B nodes n s = .ok (d, s') ∧ s ≤ s' ∧
        Rep s'.readNode (collapse T.1 T.2).1 (collapse T.1 T.2).2 d
    | none => finish B nodes n s = .error tooTall := by
  have hadd := addLevels_rep (B := B) hinj (255 - n) h hne
  cases hr : raise B (255 - n) n us with
  | none =>
    rw [hr] at hadd
    dsimp only at hadd ⊢
    rw [finish, hadd]
    rfl
  | some T =>
    rw [hr] at hadd
    obtain ⟨c, s', hadd, hle, hT⟩ := hadd
    -- the root is a node of level `n`, or it has several children and is kept
    obtain ⟨d, hd, hrep⟩ : ∃ d, collapseRoot s' (maxDepth + 1) c.2 = .ok d ∧
        Rep s'.readNode (collapse T.1 T.2).1 (collapse T.1 T.2).2 d := by
      rcases raise_cases hr with ⟨t, -, rfl⟩ | ⟨m, vs, rfl, hvs⟩
      · exact collapseRoot_rep _ (Nat.lt_succ_iff.mpr hn) hT
      · obtain ⟨ch, hd, hch⟩ := hT
        rw [collapse_of_length hvs]
        exact ⟨c.2, collapseRoot_wide hd (by rwa [← hch.length_eq]) _, ch, hd, hch⟩
    refine ⟨d, s', ?_, hle, hrep⟩
    rw [finish, hadd, ok_bind]
    dsimp only [List.head?_cons]
    rw [hd]
    rfl

include hinj in
/-- **Building raises the leaves**, or fails where raising does. -/
theorem build_rep {E : List (Bytes × Bytes)} (hE : E ≠ []) (s : MemoryStore hash) :
    match raise B 254 0 (forest B 0 E) with
    | some T => ∃ d s', build B E s = .ok (some d, s') ∧ s ≤ s' ∧ Rep s'.readNode T.1 T.2 d
    | none => build B E s = .error tooTall := by
  obtain ⟨hle, hrep⟩ := chunkLeaves_rep (B := B) hinj E s
  have hadd := addLevels_rep (B := B) hinj 254 hrep fun he => hE (forest_eq_nil.mp he)
  have hemp : ¬ E.isEmpty = true := by simpa using hE
  cases hr : raise B 254 0 (forest B 0 E) with
  | none =>
    rw [hr] at hadd
    dsimp only at hadd ⊢
    rw [build, if_neg hemp]
    dsimp only
    rw [hadd]
    rfl
  | some T =>
    rw [hr] at hadd
    obtain ⟨c, s', hadd, hle', hT⟩ := hadd
    refine ⟨c.2, s', ?_, hle.trans hle', hT⟩
    rw [build, if_neg hemp]
    dsimp only
    rw [hadd]
    rfl

end Roots

/-! ## Edits -/

section Edits

variable [DecidableEq D] {B : Bytes → ℕ → Bool} (hinj : Function.Injective hash)

theorem leafOpen_eq (es : List (Bytes × Bytes)) : leafOpen B es = isOpen B es := by
  rw [leafOpen, isOpen, lastKey, Option.any_map]

theorem route_index {n : ℕ} {key : Bytes} {ts l r : List (Tree Bytes Bytes n)}
    {t : Tree Bytes Bytes n} (h : route n key ts = some (l, t, r)) {ch : ChildRun D}
    (hch : ch.map Prod.fst = ts.map (maxKey n)) :
    (ch.findIdx? fun c => decide (key ≤ c.1)).getD (ch.length - 1) = l.length := by
  obtain ⟨rfl, hl, ht⟩ := route_spec h
  have hlen : ch.length = (l ++ t :: r).length := by
    rw [← length_map (f := Prod.fst), hch, length_map]
  have hidx : (ch.findIdx? fun c => decide (key ≤ c.1)) =
      (l ++ t :: r).findIdx? fun u => decide (key ≤ maxKey n u) := by
    have := congrArg (List.findIdx? fun k => decide (key ≤ k)) hch
    rwa [List.findIdx?_map, List.findIdx?_map] at this
  have hnone : (l.findIdx? fun u => decide (key ≤ maxKey n u)) = none := by
    rw [List.findIdx?_eq_none_iff]
    intro u hu
    simpa using hl u hu
  rw [hidx, hlen, List.findIdx?_append, hnone, List.findIdx?_cons]
  by_cases hk : key ≤ maxKey n t
  · simp [hk]
  · obtain rfl := ht.resolve_left hk
    simp [hk]

include hinj in
/-- **A mutation is an edit of the level tree.** -/
theorem mutate_rep (key : Bytes) (change : Change) : ∀ {n : ℕ} {t : Tree Bytes Bytes n} {d : D}
    {s : MemoryStore hash} (last : Bool), Rep s.readNode n t d → Full n t →
      match edit B (change.apply key) key n t last with
      | some us => ∃ nodes s', mutate B key change n d last s = .ok (some nodes, s') ∧ s ≤ s' ∧
          RepRun s'.readNode n us nodes
      | none => mutate B key change n d last s = .ok (none, s)
  | 0, es, d, s, last, h, _ => by
    rw [edit, mutate, show s.readNode d = .ok (.leaf es) from h, ok_bind]
    dsimp only
    rw [leafOpen_eq]
    by_cases ho : (isOpen B (change.apply key es) && !last) = true
    · rw [if_pos ho, if_pos ho]
    · rw [if_neg ho, if_neg ho]
      obtain ⟨hle, hrep⟩ := chunkLeaves_rep (B := B) hinj (change.apply key es) s
      exact ⟨_, _, rfl, hle, hrep⟩
  | n + 1, ts, d, s, last, ⟨ch, hd, hch⟩, ⟨hne, hf⟩ => by
    obtain ⟨l, t, r, hr⟩ := exists_route hne key
    have hi := route_index hr (RepRun.keys hch)
    obtain ⟨rfl, -, -⟩ := route_spec hr
    obtain ⟨cl, cs, rfl, hcl, hcs⟩ := Lists.forall₂_split hch
    obtain ⟨c, cr, hc, hcr, rfl⟩ := List.forall₂_cons_left_iff.mp hcs
    have hlen : l.length = cl.length := hcl.length_eq
    have hlast : (l.length == (cl ++ c :: cr).length - 1) = r.isEmpty := by
      have hrl := hcr.length_eq
      rw [hlen, List.length_append, List.length_cons, Nat.add_succ_sub_one, ← hrl]
      cases r <;> simp
    have ih := mutate_rep key change (last && r.isEmpty) hc.2 (hf t (by simp))
    rw [edit, hr, mutate, hd, ok_bind]
    dsimp only
    rw [hi, hlast, hlen, List.getElem?_append_right le_rfl, Nat.sub_self, List.getElem?_cons_zero]
    dsimp only
    cases he : edit B (change.apply key) key n t (last && r.isEmpty) with
    | none =>
      rw [he] at ih
      dsimp only at ih
      rw [ih]
      rfl
    | some us =>
      rw [he] at ih
      obtain ⟨sub, s', hsub, hle, hrep⟩ := ih
      have hnext : RepRun s'.readNode n (l ++ us ++ r) (cl ++ sub ++ cr) :=
        List.rel_append (List.rel_append (RepRun.mono (readNode_mono hle) hcl) hrep)
          (RepRun.mono (readNode_mono hle) hcr)
      rw [hsub, ok_bind, Option.map_some]
      dsimp only
      have htake : (cl ++ c :: cr).take cl.length = cl := by simp
      have hdrop : (cl ++ c :: cr).drop (cl.length + 1) = cr := by simp
      rw [htake, hdrop]
      by_cases hnil : (cl ++ sub ++ cr).isEmpty = true
      · rw [if_pos hnil]
        have hnil' : l ++ us ++ r = [] := by
          rw [List.isEmpty_iff] at hnil
          exact List.length_eq_zero_iff.mp (by rw [hnext.length_eq, hnil]; rfl)
        rw [hnil']
        exact ⟨[], s', rfl, hle, .nil⟩
      · rw [if_neg hnil]
        obtain ⟨hle', hrep'⟩ := chunkInternal_rep (B := B) hinj hnext
        exact ⟨_, _, rfl, hle.trans hle', hrep'⟩

end Edits

end UldrenLoom.Prolly
