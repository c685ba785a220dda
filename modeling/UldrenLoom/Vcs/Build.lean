import UldrenLoom.Vcs.Shard

/-!
# Building a tree

* **`buildSubtree_spec`**: building stores the tree exactly if it can be stored.
-/

set_option linter.unusedSectionVars false

namespace UldrenLoom.Vcs

open ByteString Effect Object List SortedMap SortedSet

/-! ## Paths -/

variable {p rest seg : Path}

theorem dropPrefix_eq_some {pre : Path} : p.dropPrefix? pre = some rest ↔ p = pre ++ rest := by
  rw [List.dropPrefix?_eq_some_iff]
  simp

theorem dropPrefix_append (pre rest : Path) : (pre ++ rest).dropPrefix? pre = some rest :=
  dropPrefix_eq_some.mpr rfl

theorem splitOnce_eq_none : splitOnce p = none ↔ '/' ∉ p := by
  induction p with
  | nil => simp [splitOnce]
  | cons c p ih =>
    rw [splitOnce]
    split_ifs with h
    · simp [h]
    · rw [Option.map_eq_none_iff, ih, mem_cons, not_or]
      exact ⟨fun hp => ⟨Ne.symm h, hp⟩, And.right⟩

theorem splitOnce_append (h : '/' ∉ seg) (rest : Path) :
    splitOnce (seg ++ '/' :: rest) = some (seg, rest) := by
  induction seg with
  | nil => rfl
  | cons c seg ih =>
    rw [mem_cons, not_or] at h
    rw [cons_append, splitOnce, if_neg (Ne.symm h.1), ih h.2]
    rfl

theorem splitOnce_eq_some (h : splitOnce p = some (seg, rest)) :
    p = seg ++ '/' :: rest ∧ '/' ∉ seg := by
  induction p generalizing seg with
  | nil => simp [splitOnce] at h
  | cons c p ih =>
    rw [splitOnce] at h
    split_ifs at h with hc
    · cases h
      exact ⟨by rw [hc]; rfl, by simp⟩
    · obtain ⟨⟨a, b⟩, hab, heq⟩ := Option.map_eq_some_iff.mp h
      cases heq
      obtain ⟨rfl, hn⟩ := ih hab
      exact ⟨rfl, by simp [hn, Ne.symm hc]⟩

theorem segment_cases (r : Path) : '/' ∉ r ∨ ∃ seg rest, r = seg ++ '/' :: rest ∧ '/' ∉ seg := by
  cases h : splitOnce r with
  | none => exact .inl (splitOnce_eq_none.mp h)
  | some x => exact .inr ⟨x.1, x.2, splitOnce_eq_some h⟩

variable {D : Type} {B : Bytes → ℕ → Bool}

/-- The files and the directories. -/
def IsPath (files : WorkTree D) (dirs : DirSet) (p : Path) : Prop := p ∈ files.keys ∨ p ∈ dirs

/-- **The directories that files and directories imply.** -/
def Implied (files : WorkTree D) (dirs : DirSet) (p : Path) : Prop :=
  (∃ x, IsPath files dirs (p ++ '/' :: x)) ∨ p ∈ dirs ∧ p ≠ [] ∧ p.getLast? ≠ some '/'

variable {files : WorkTree D} {dirs : DirSet} {pre : Path}

theorem fileChild_eq_some {e : Path × StagedEntry D} {name : Path} {slot : StagedEntry D} :
    fileChild pre e = some (name, slot) ↔ e = (pre ++ name, slot) ∧ '/' ∉ name := by
  obtain ⟨p, t⟩ := e
  rw [fileChild]
  constructor
  · intro h
    cases hp : p.dropPrefix? pre with
    | none => simp [hp] at h
    | some rest =>
      cases hs : splitOnce rest with
      | some x => simp [hp, hs] at h
      | none =>
        simp only [hp, hs, Option.some.injEq, Prod.mk.injEq] at h
        obtain ⟨rfl, rfl⟩ := h
        exact ⟨by rw [dropPrefix_eq_some.mp hp], splitOnce_eq_none.mp hs⟩
  · rintro ⟨⟨⟩, hn⟩
    simp [dropPrefix_append, splitOnce_eq_none.mpr hn]

theorem mem_fileChildren {name : Path} {slot : StagedEntry D} :
    (name, slot) ∈ fileChildren files pre ↔ files.get (pre ++ name) = some slot ∧ '/' ∉ name := by
  rw [fileChildren, mem_filterMap, get_eq_some]
  simp [fileChild_eq_some]

theorem fileSegment_eq_some {path : Path} :
    fileSegment pre path = some seg ↔ '/' ∉ seg ∧ ∃ x, path = pre ++ seg ++ '/' :: x := by
  rw [fileSegment]
  constructor
  · intro h
    cases hp : path.dropPrefix? pre with
    | none => simp [hp] at h
    | some rest =>
      rw [hp] at h
      obtain ⟨⟨a, b⟩, hs, rfl⟩ := Option.map_eq_some_iff.mp h
      obtain ⟨rfl, hn⟩ := splitOnce_eq_some hs
      exact ⟨hn, b, by rw [dropPrefix_eq_some.mp hp, append_assoc]⟩
  · rintro ⟨hn, x, rfl⟩
    rw [append_assoc, dropPrefix_append]
    simp only [splitOnce_append hn, Option.map_some]

theorem dirSegment_eq_some {dir : Path} : dirSegment pre dir = some seg ↔ '/' ∉ seg ∧
      ((∃ x, dir = pre ++ seg ++ '/' :: x) ∨ seg ≠ [] ∧ dir = pre ++ seg) := by
  rw [dirSegment]
  constructor
  · intro h
    cases hp : dir.dropPrefix? pre with
    | none => simp [hp] at h
    | some rest =>
      obtain rfl := dropPrefix_eq_some.mp hp
      simp only [hp] at h
      split_ifs at h with hr
      cases hs : splitOnce rest with
      | none =>
        rw [hs] at h
        obtain rfl : rest = seg := Option.some.inj h
        exact ⟨splitOnce_eq_none.mp hs, .inr ⟨hr, rfl⟩⟩
      | some x =>
        rw [hs] at h
        obtain rfl : x.1 = seg := Option.some.inj h
        obtain ⟨hrest, hn⟩ := splitOnce_eq_some hs
        exact ⟨hn, .inl ⟨x.2, by rw [append_assoc, ← hrest]⟩⟩
  · rintro ⟨hn, ⟨x, rfl⟩ | ⟨hne, rfl⟩⟩
    · rw [append_assoc, dropPrefix_append]
      simp [splitOnce_append hn]
    · rw [dropPrefix_append]
      simp [hne, splitOnce_eq_none.mpr hn]

theorem mem_dirChildren : seg ∈ dirChildren files dirs pre ↔ '/' ∉ seg ∧
      ((∃ x, IsPath files dirs (pre ++ seg ++ '/' :: x)) ∨ seg ≠ [] ∧ pre ++ seg ∈ dirs) := by
  rw [dirChildren, mem_insertAll, mem_ofList, mem_filterMap, mem_filterMap]
  constructor
  · rintro (⟨p, hp, hs⟩ | ⟨p, hp, hs⟩)
    · obtain ⟨hn, x, rfl⟩ := fileSegment_eq_some.mp hs
      exact ⟨hn, .inl ⟨x, .inl hp⟩⟩
    · obtain ⟨hn, ⟨x, rfl⟩ | ⟨hne, rfl⟩⟩ := dirSegment_eq_some.mp hs
      · exact ⟨hn, .inl ⟨x, .inr ((mem_elems _ _).mp hp)⟩⟩
      · exact ⟨hn, .inr ⟨hne, (mem_elems _ _).mp hp⟩⟩
  · rintro ⟨hn, ⟨x, hp | hp⟩ | ⟨hne, hp⟩⟩
    · exact .inl ⟨_, hp, fileSegment_eq_some.mpr ⟨hn, x, rfl⟩⟩
    · exact .inr ⟨_, (mem_elems _ _).mpr hp, dirSegment_eq_some.mpr ⟨hn, .inl ⟨x, rfl⟩⟩⟩
    · exact .inr ⟨_, (mem_elems _ _).mpr hp, dirSegment_eq_some.mpr ⟨hn, .inr ⟨hne, rfl⟩⟩⟩

theorem implied_of_mem_dirChildren (h : seg ∈ dirChildren files dirs pre) :
    Implied files dirs (pre ++ seg) := by
  obtain ⟨hn, ⟨x, hx⟩ | ⟨hne, hd⟩⟩ := mem_dirChildren.mp h
  · exact .inl ⟨x, hx⟩
  · refine .inr ⟨hd, by simp [hne], fun hl => hn ?_⟩
    rw [List.getLast?_append_of_ne_nil _ hne] at hl
    exact mem_of_mem_getLast? hl

theorem mem_dirChildren_of_path (hn : '/' ∉ seg)
    (h : IsPath files dirs (pre ++ (seg ++ '/' :: rest)) ∨
      Implied files dirs (pre ++ (seg ++ '/' :: rest))) :
    seg ∈ dirChildren files dirs pre := by
  refine mem_dirChildren.mpr ⟨hn, .inl ?_⟩
  rcases h with h | ⟨x, hx⟩ | ⟨h, -⟩
  · exact ⟨rest, by rwa [append_assoc]⟩
  · exact ⟨rest ++ '/' :: x, by simpa using hx⟩
  · exact ⟨rest, .inr (by rwa [append_assoc])⟩

/-! ## The entries of a directory -/

theorem nodup_fileChildren (files : WorkTree D) (pre : Path) :
    ((fileChildren files pre).map Prod.fst).Nodup := by
  refine pairwise_map.mpr (files.ascending.distinct.filterMap _ ?_)
  intro a a' hne b hb b' hb' heq
  rw [(fileChild_eq_some.mp hb).1, (fileChild_eq_some.mp hb').1] at hne
  exact hne (congrArg (pre ++ ·) heq)

/-- No file of a directory has the name of a subdirectory. -/
def Distinct (files : WorkTree D) (dirs : DirSet) (pre : Path) : Prop :=
  ∀ name ∈ (fileChildren files pre).map Prod.fst, name ∉ dirChildren files dirs pre

theorem StagedEntry.name_entry (name : Path) (slot : StagedEntry D) :
    (slot.entry name).name = name := by cases slot <;> rfl

theorem StagedEntry.slot_entry (name : Path) (slot : StagedEntry D) :
    (slot.entry name).slot = slot := by cases slot <;> rfl

theorem StagedEntry.kind_entry (name : Path) (slot : StagedEntry D) :
    (slot.entry name).kind ≠ .tree ∧ (slot.entry name).kind ≠ .treeShard := by
  cases slot <;> simp [StagedEntry.entry]

def fileEntries (files : WorkTree D) (pre : Path) : List (TreeEntry D) :=
  (fileChildren files pre).map fun e => e.2.entry e.1

theorem names_fileEntries (files : WorkTree D) (pre : Path) :
    (fileEntries files pre).map TreeEntry.name = (fileChildren files pre).map Prod.fst := by
  rw [fileEntries, map_map]
  exact map_congr_left fun e _ => StagedEntry.name_entry e.1 e.2

variable {e : TreeEntry D}

theorem kind_fileEntries (he : e ∈ fileEntries files pre) :
    e.kind ≠ .tree ∧ e.kind ≠ .treeShard := by
  obtain ⟨c, -, rfl⟩ := mem_map.mp he
  exact StagedEntry.kind_entry c.1 c.2

/-- The entry of a subdirectory. -/
def SubEntry (P : Path → D → Prop) (seg : Path) (e : TreeEntry D) : Prop :=
  e.name = seg ∧ e.kind = .tree ∧ P seg e.target

variable {P : Path → D → Prop} {segs : List Path} {subs : List (TreeEntry D)}

theorem names_subs (h : List.Forall₂ (SubEntry P) segs subs) : subs.map TreeEntry.name = segs := by
  rw [← forall₂_eq_eq_eq, forall₂_map_left_iff]
  exact (h.imp fun _ _ he => he.1).flip

theorem kind_subs (h : List.Forall₂ (SubEntry P) segs subs) (he : e ∈ subs) : e.kind = .tree := by
  induction h with
  | nil => simp at he
  | cons hx _ ih =>
    rcases mem_cons.mp he with rfl | he
    · exact hx.2.1
    · exact ih he

theorem mem_subs (h : List.Forall₂ (SubEntry P) segs subs) (he : e ∈ subs) :
    e.name ∈ segs ∧ P e.name e.target := by
  induction h with
  | nil => simp at he
  | cons hx _ ih =>
    rcases mem_cons.mp he with rfl | he
    · rw [hx.1]
      exact ⟨by simp, hx.2.2⟩
    · exact ⟨mem_cons_of_mem _ (ih he).1, (ih he).2⟩

theorem nodup_names_iff (hsubs : subs.map TreeEntry.name = (dirChildren files dirs pre).elems) :
    ((fileEntries files pre ++ subs).map TreeEntry.name).Nodup ↔ Distinct files dirs pre := by
  rw [map_append, names_fileEntries, hsubs, nodup_append']
  have hd : ∀ x, x ∈ (dirChildren files dirs pre).elems ↔ x ∈ dirChildren files dirs pre :=
    mem_elems _
  simp only [nodup_fileChildren, nodup_elems, true_and, disjoint_left, hd, Distinct]

theorem nameDepth_subs (hsubs : subs.map TreeEntry.name = (dirChildren files dirs pre).elems) :
    nameDepth B ((sortEntries (fileEntries files pre ++ subs)).map TreeEntry.name) =
      shardDepth B files dirs pre := by
  rw [names_sortEntries, map_append, names_fileEntries, hsubs]
  rfl

/-! ## Building -/

section Build

variable [LinearOrder D] [ToString D] {hash : Stored D → D}

variable (B files dirs) in
/-- Every directory below a prefix, at most `n` deep, can be stored. -/
def Fits : (n : ℕ) → (pre : Path) → Prop
  | 0, _ => False
  | n + 1, pre => (∀ seg ∈ dirChildren files dirs pre, Fits n (pre ++ seg ++ ['/'])) ∧
      Distinct files dirs pre ∧ shardDepth B files dirs pre ≤ 254

variable (B files dirs) in
/-- A stored tree has exactly the entries of a prefix, at every level. -/
def Represents (s : ContentStore hash) : (n : ℕ) → (pre : Path) → D → Prop
  | 0, _, _ => False
  | n + 1, pre, d => ∃ subs,
      List.Forall₂ (SubEntry fun seg t => Represents s n (pre ++ seg ++ ['/']) t)
        (dirChildren files dirs pre).elems subs ∧
      Below s (shardDepth B files dirs pre) (sortEntries (fileEntries files pre ++ subs)) d

variable {n : ℕ}

theorem Represents.mono {s t : ContentStore hash} (hle : s ≤ t) {n : ℕ} {pre : Path} {d : D}
    (h : Represents B files dirs s n pre d) : Represents B files dirs t n pre d := by
  induction n generalizing pre d with
  | zero => exact h
  | succ n ih =>
    obtain ⟨subs, hsubs, hb⟩ := h
    exact ⟨subs, hsubs.imp fun _ _ he => ⟨he.1, he.2.1, ih he.2.2⟩, hb.mono hle⟩

variable (hinj : Function.Injective hash)

include hinj in
/-- **Building stores the tree of a prefix** exactly if all its directories can be stored. -/
theorem build_spec (n : ℕ) (pre : Path) (s : ContentStore hash) :
    Settles (buildLevels B files dirs n pre) (Fits B files dirs n pre)
      (fun s' d => Represents B files dirs s' n pre d) s := by
  induction n generalizing pre s with
  | zero => exact ⟨s, le_rfl, .inr ⟨id, _, rfl⟩⟩
  | succ n ih =>
    -- the entry of one subdirectory, then all of them, then the directory itself
    have hsub : ∀ seg (s' : ContentStore hash), Settles (do
          let sub ← buildLevels B files dirs n (pre ++ seg ++ ['/'])
          return (⟨seg, .tree, sub, dirMode⟩ : TreeEntry D))
        (Fits B files dirs n (pre ++ seg ++ ['/']))
        (fun t e => SubEntry (fun seg d => Represents B files dirs t n (pre ++ seg ++ ['/']) d) seg e)
        s' := by
      intro seg s'
      refine ((ih (pre ++ seg ++ ['/']) s').bind (R := True) fun d t _ hd => ?_).imp
        (and_iff_left trivial) fun _ _ _ => id
      exact settles_pure ⟨rfl, rfl, hd⟩
    have hsubs := settles_mapM (fun seg e _ _ hle he => ⟨he.1, he.2.1, he.2.2.mono hle⟩)
      (dirChildren files dirs pre).elems (fun seg _ s' => hsub seg s') s
    rw [buildLevels]
    refine (hsubs.bind (R := Distinct files dirs pre ∧ shardDepth B files dirs pre ≤ 254)
      fun subs s1 hle hall => ?_).imp (by simp only [mem_elems]; rfl) fun _ _ _ => id
    have hnames := names_subs hall
    have hk : ∀ e ∈ fileEntries files pre ++ subs, e.kind ≠ .treeShard :=
      forall_mem_append.mpr ⟨fun e he => (kind_fileEntries he).2, fun e he => by
        rw [kind_subs hall he]
        decide⟩
    refine (putDirectory_spec hinj hk s1).imp
      (and_congr (nodup_names_iff hnames) (by rw [nameDepth_subs hnames])) fun s2 d hle' hb => ?_
    rw [nameDepth_subs hnames] at hb
    exact ⟨subs, hall.imp fun _ _ he => ⟨he.1, he.2.1, he.2.2.mono hle'⟩, hb⟩

/-! ## Which directories there are -/

/-- The fuel covers the paths below a prefix. -/
def Adequate (files : WorkTree D) (dirs : DirSet) (n : ℕ) (pre : Path) : Prop :=
  0 < n ∧ ∀ p, IsPath files dirs p → pre <+: p → p.length < pre.length + n

theorem Adequate.child {seg : Path} (h : Adequate files dirs (n + 1) pre)
    (hseg : seg ∈ dirChildren files dirs pre) : Adequate files dirs n (pre ++ seg ++ ['/']) := by
  have hpath : ∃ p, IsPath files dirs p ∧ pre <+: p ∧ pre.length < p.length := by
    obtain ⟨-, ⟨x, hx⟩ | ⟨hne, hd⟩⟩ := mem_dirChildren.mp hseg
    · exact ⟨_, hx, by simp [append_assoc], by simp⟩
    · have := length_pos_of_ne_nil hne
      exact ⟨_, .inr hd, by simp, by simp; omega⟩
  obtain ⟨p, hp, hpre, hlt⟩ := hpath
  have := h.2 p hp hpre
  refine ⟨by omega, fun q hq hqp => ?_⟩
  have hq' := h.2 q hq (((prefix_append pre _).trans (by rw [append_assoc])).trans hqp)
  simp only [length_append, length_singleton]
  omega

theorem adequate_root (files : WorkTree D) (dirs : DirSet) :
    Adequate files dirs (longestPath files dirs + 1) [] := by
  refine ⟨Nat.succ_pos _, fun p hp _ => ?_⟩
  have hmem : p ∈ files.keys ++ dirs.elems := by
    rw [mem_append, mem_elems]
    exact hp
  have hle : p.length ≤ longestPath files dirs := by
    rw [longestPath]
    generalize files.keys ++ dirs.elems = l at hmem
    induction l with
    | nil => simp at hmem
    | cons q qs ih =>
      rw [map_cons, foldr_cons]
      rcases mem_cons.mp hmem with rfl | hmem
      · exact le_max_left _ _
      · exact (ih hmem).trans (le_max_right _ _)
  omega

/-- The prefix of a directory: empty, or ending in a slash. -/
def IsDirPrefix (pre : Path) : Prop := pre = [] ∨ pre.getLast? = some '/'

variable (B files dirs) in
/-- **What can be stored**: no file is an implied directory, and no directory needs too many levels. -/
def Buildable : Prop :=
  (∀ p ∈ files.keys, ¬ Implied files dirs p) ∧
    ∀ pre, IsDirPrefix pre → shardDepth B files dirs pre ≤ 254

theorem distinct_of_not_implied (h : ∀ p ∈ files.keys, ¬ Implied files dirs p) (pre : Path) :
    Distinct files dirs pre := by
  intro name hname hdir
  obtain ⟨⟨n, slot⟩, hmem, rfl⟩ := mem_map.mp hname
  exact h _ (mem_keys_of_get (mem_fileChildren.mp hmem).1) (implied_of_mem_dirChildren hdir)

theorem isDirPrefix_child (pre seg : Path) : IsDirPrefix (pre ++ seg ++ ['/']) :=
  .inr List.getLast?_concat

theorem Buildable.fits (h : Buildable B files dirs) {pre : Path} (hpre : IsDirPrefix pre)
    (hn : Adequate files dirs n pre) : Fits B files dirs n pre := by
  induction n generalizing pre with
  | zero => exact absurd hn.1 (Nat.lt_irrefl 0)
  | succ n ih =>
    exact ⟨fun seg hseg => ih (isDirPrefix_child pre seg) (hn.child hseg),
      distinct_of_not_implied h.1 pre, h.2 pre hpre⟩

theorem exists_dirPrefix (p : Path) : ∃ pre name, p = pre ++ name ∧ '/' ∉ name ∧ IsDirPrefix pre := by
  induction p using List.reverseRecOn with
  | nil => exact ⟨[], [], rfl, by simp, .inl rfl⟩
  | append_singleton p c ih =>
    by_cases hc : c = '/'
    · exact ⟨p ++ [c], [], by simp, by simp, .inr (by rw [hc, List.getLast?_concat])⟩
    · obtain ⟨pre, name, rfl, hn, hpre⟩ := ih
      exact ⟨pre, name ++ [c], by simp, by simp [hn, Ne.symm hc], hpre⟩

theorem IsDirPrefix.tail (seg rest : Path) (h : IsDirPrefix (seg ++ '/' :: rest)) :
    IsDirPrefix rest := by
  rcases h with h | h
  · simp at h
  · by_cases hrest : rest = []
    · exact .inl hrest
    · right
      rwa [List.getLast?_append_of_ne_nil _ (cons_ne_nil _ _), ← singleton_append,
        List.getLast?_append_of_ne_nil _ hrest] at h

theorem Fits.below {pre : Path} (h : Fits B files dirs n pre) {r : Path} (hr : IsDirPrefix r)
    {x : Path} (hx : IsPath files dirs (pre ++ r ++ x)) :
    Distinct files dirs (pre ++ r) ∧ shardDepth B files dirs (pre ++ r) ≤ 254 := by
  induction n generalizing pre r with
  | zero => exact absurd h id
  | succ n ih =>
    rcases segment_cases r with hr' | ⟨seg, rest, rfl, hseg⟩
    · have hnil : r = [] := hr.resolve_right fun hl => hr' (mem_of_mem_getLast? hl)
      rw [hnil, append_nil]
      exact h.2
    · have happ : pre ++ (seg ++ '/' :: rest) = (pre ++ seg ++ ['/']) ++ rest := by simp
      have hdir : seg ∈ dirChildren files dirs pre := by
        refine mem_dirChildren.mpr ⟨hseg, .inl ⟨rest ++ x, ?_⟩⟩
        simpa using hx
      rw [happ] at hx ⊢
      exact ih (h.1 seg hdir) (hr.tail seg rest) hx

theorem shardDepth_of_no_path {pre : Path} (h : ∀ x, ¬ IsPath files dirs (pre ++ x)) :
    shardDepth B files dirs pre = 0 := by
  have hf : fileChildren files pre = [] := by
    refine eq_nil_iff_forall_not_mem.mpr fun c hc => ?_
    exact h c.1 (.inl (mem_keys_of_get (mem_fileChildren.mp hc).1))
  have hd : (dirChildren files dirs pre).elems = [] := by
    refine eq_nil_iff_forall_not_mem.mpr fun seg hseg => ?_
    obtain ⟨-, ⟨x, hx⟩ | ⟨-, hx⟩⟩ := mem_dirChildren.mp ((mem_elems _ _).mp hseg)
    · exact h _ (by rwa [append_assoc] at hx)
    · exact h seg (.inr hx)
  rw [shardDepth, entryNames, hf, hd]
  rfl

theorem fits_iff_buildable (hn : Adequate files dirs n []) :
    Fits B files dirs n [] ↔ Buildable B files dirs := by
  refine ⟨fun h => ⟨fun p hp himp => ?_, fun pre hpre => ?_⟩, fun h => h.fits (.inl rfl) hn⟩
  · obtain ⟨pre, name, rfl, hname, hpre⟩ := exists_dirPrefix p
    obtain ⟨slot, hslot⟩ := Option.ne_none_iff_exists'.mp (mem_keys.mp hp)
    refine (h.below hpre (x := name) (.inl hp)).1 name
      (mem_map.mpr ⟨(name, slot), mem_fileChildren.mpr ⟨hslot, hname⟩, rfl⟩)
      (mem_dirChildren.mpr ⟨hname, ?_⟩)
    rcases himp with hx | ⟨hd, hne, hlast⟩
    · exact .inl hx
    · refine .inr ⟨fun hnil => ?_, hd⟩
      rw [hnil, append_nil] at hne hlast
      exact hpre.elim hne hlast
  · by_cases hx : ∃ x, IsPath files dirs (pre ++ x)
    · obtain ⟨x, hx⟩ := hx
      exact (h.below hpre hx).2
    · rw [shardDepth_of_no_path fun x hx' => hx ⟨x, hx'⟩]
      exact Nat.zero_le _

variable (B files dirs) in
include hinj in
/-- **A tree is stored exactly if it can be.** -/
theorem buildSubtree_spec (s : ContentStore hash) :
    Settles (buildSubtree B files dirs []) (Buildable B files dirs)
      (fun s' d => Represents B files dirs s' (longestPath files dirs + 1) [] d) s :=
  (build_spec hinj _ [] s).imp (fits_iff_buildable (adequate_root files dirs)) fun _ _ _ => id

end Build

end UldrenLoom.Vcs
