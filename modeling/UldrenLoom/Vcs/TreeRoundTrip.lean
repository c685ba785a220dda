import UldrenLoom.Vcs.Build
import UldrenLoom.Vcs.FreeDigest

/-!
# Reading back a tree that was built

* **`flatten_represents`**: reading a tree that represents a prefix adds the files and the implied
  directories below it.
* **`flatten_buildSubtree`**: with a clean namespace of normalised paths the build succeeds, and what
  is read back are the files and the directories closed under parents.
-/

set_option linter.unusedSectionVars false

namespace UldrenLoom.Vcs

open ByteString Fallible Effect Object List SortedMap SortedSet

variable {D : Type} {B : Bytes → ℕ → Bool} {files : WorkTree D} {dirs : DirSet} {pre : Path}

/-! ## Reading -/

section Read

variable [LinearOrder D] [ToString D] {hash : Stored D → D} {s : ContentStore hash}

/-- The files with `U` and the directories with `G` are added. -/
structure Adds (files : WorkTree D) (U G : Path → Prop) (acc acc' : WorkTree D × DirSet) : Prop where
  inside : ∀ p, U p → files.get p ≠ none → acc'.1.get p = files.get p
  outside : ∀ p, (U p → files.get p = none) → acc'.1.get p = acc.1.get p
  dirs : ∀ p, p ∈ acc'.2 ↔ p ∈ acc.2 ∨ G p

theorem Adds.trans {U U' G G' : Path → Prop} {a b c : WorkTree D × DirSet}
    (h : Adds files U G a b) (h' : Adds files U' G' b c) :
    Adds files (fun p => U p ∨ U' p) (fun p => G p ∨ G' p) a c where
  inside p hp hf := by
    by_cases hu : U' p
    · exact h'.inside p hu hf
    · rw [h'.outside p fun h => absurd h hu, h.inside p (hp.resolve_right hu) hf]
  outside p hp := by
    rw [h'.outside p fun hu => hp (.inr hu), h.outside p fun hu => hp (.inl hu)]
  dirs p := by rw [h'.dirs, h.dirs, or_assoc]

theorem Adds.congr {U U' G G' : Path → Prop} {a b : WorkTree D × DirSet} (h : Adds files U G a b)
    (hU : ∀ p, files.get p ≠ none → (U p ↔ U' p)) (hG : ∀ p, G p ↔ G' p) :
    Adds files U' G' a b where
  inside p hp hf := h.inside p ((hU p hf).mpr hp) hf
  outside p hp := h.outside p fun hu => by
    by_contra hf
    exact hf (hp ((hU p hf).mp hu))
  dirs p := by rw [h.dirs, hG]

theorem foldlM_adds {α : Type} {es : List α} {U G : α → Path → Prop}
    {step : WorkTree D × DirSet → α → Result (WorkTree D × DirSet)}
    (h : ∀ e ∈ es, ∀ acc, ∃ acc', step acc e = .ok acc' ∧ Adds files (U e) (G e) acc acc')
    (acc : WorkTree D × DirSet) :
    ∃ acc', es.foldlM step acc = .ok acc' ∧
      Adds files (fun p => ∃ e ∈ es, U e p) (fun p => ∃ e ∈ es, G e p) acc acc' := by
  induction es generalizing acc with
  | nil => exact ⟨acc, rfl, by simp, by simp, by simp⟩
  | cons e es ih =>
    obtain ⟨b, hb, hadd⟩ := h e (by simp) acc
    obtain ⟨c, hc, hadd'⟩ := ih (fun x hx => h x (by simp [hx])) b
    refine ⟨c, by rw [foldlM_cons, hb, ok_bind, hc], (hadd.trans hadd').congr ?_ ?_⟩
    · exact fun p _ => by simp
    · exact fun p => by simp

/-- The directories that are implied below a prefix. -/
def ImpliedBelow (files : WorkTree D) (dirs : DirSet) (pre p : Path) : Prop :=
  ∃ r, p = pre ++ r ∧
    ((∃ x, IsPath files dirs (p ++ '/' :: x)) ∨ p ∈ dirs ∧ r ≠ [] ∧ r.getLast? ≠ some '/')

theorem impliedBelow_nil {p : Path} : ImpliedBelow files dirs [] p ↔ Implied files dirs p :=
  ⟨fun ⟨r, hp, h⟩ => by obtain rfl : p = r := hp; exact h, fun h => ⟨p, rfl, h⟩⟩

theorem impliedBelow_iff {p : Path} : ImpliedBelow files dirs pre p ↔
    ∃ seg ∈ dirChildren files dirs pre,
      p = pre ++ seg ∨ ImpliedBelow files dirs (pre ++ seg ++ ['/']) p := by
  constructor
  · rintro ⟨r, rfl, h⟩
    rcases segment_cases r with hr | ⟨seg, rest, rfl, hseg⟩
    · refine ⟨r, mem_dirChildren.mpr ⟨hr, ?_⟩, .inl rfl⟩
      exact h.imp_right fun h => ⟨h.2.1, h.1⟩
    · have happ : pre ++ (seg ++ '/' :: rest) = pre ++ seg ++ ['/'] ++ rest := by simp
      refine ⟨seg, mem_dirChildren.mpr ⟨hseg, .inl ?_⟩, .inr ⟨rest, happ, ?_⟩⟩
      · rcases h with ⟨x, hx⟩ | ⟨hd, -, -⟩
        · exact ⟨rest ++ '/' :: x, by simpa using hx⟩
        · exact ⟨rest, .inr (by simpa using hd)⟩
      · refine h.imp_right fun h => ⟨h.1, ?_⟩
        have hrest : rest ≠ [] := by
          rintro rfl
          exact h.2.2 List.getLast?_concat
        refine ⟨hrest, ?_⟩
        have hl := h.2.2
        rwa [List.getLast?_append_of_ne_nil _ (cons_ne_nil _ _), ← singleton_append,
          List.getLast?_append_of_ne_nil _ hrest] at hl
  · rintro ⟨seg, hseg, rfl | ⟨r, rfl, h⟩⟩
    · obtain ⟨hn, hx | ⟨hne, hd⟩⟩ := mem_dirChildren.mp hseg
      · exact ⟨seg, rfl, .inl hx⟩
      · exact ⟨seg, rfl, .inr ⟨hd, hne, fun hl => hn (mem_of_mem_getLast? hl)⟩⟩
    · refine ⟨seg ++ '/' :: r, by simp, h.imp_right fun h => ⟨h.1, by simp, ?_⟩⟩
      rw [List.getLast?_append_of_ne_nil _ (cons_ne_nil _ _), ← singleton_append,
        List.getLast?_append_of_ne_nil _ h.2.1]
      exact h.2.2

variable {d : D}

theorem treeEntries_of_below {depth : ℕ} {es : List (TreeEntry D)} (h : Below s depth es d) :
    treeEntries s d = if depth ≤ maxShardDepth then .ok es else .error tooDeep := by
  rw [treeEntries, h.collect]
  simp only [Nat.lt_succ_iff]

variable {n : ℕ}

/-- **Reading a tree adds the files and the implied directories below its prefix.** -/
theorem flatten_represents {pre : Path} (h : Represents B files dirs s n pre d)
    (hdepth : ∀ pre, IsDirPrefix pre → shardDepth B files dirs pre ≤ maxShardDepth)
    (hpre : IsDirPrefix pre) (acc : WorkTree D × DirSet) :
    ∃ acc', flattenTree s n d pre acc = .ok acc' ∧
      Adds files (pre <+: ·) (ImpliedBelow files dirs pre) acc acc' := by
  induction n generalizing pre d acc with
  | zero => exact absurd h id
  | succ n ih =>
    obtain ⟨subs, hsubs, hb⟩ := h
    have hnames := names_subs hsubs
    have hperm := perm_sortEntries (fileEntries files pre ++ subs)
    rw [flattenTree, treeEntries_of_below hb, if_pos (hdepth pre hpre), ok_bind]
    -- what each entry adds
    have hstep : ∀ e ∈ sortEntries (fileEntries files pre ++ subs), ∀ acc : WorkTree D × DirSet,
        ∃ acc', (if e.kind = .tree then
            flattenTree s n e.target (pre ++ e.name ++ ['/']) (acc.1, acc.2.insert (pre ++ e.name))
          else .ok (acc.1.insert (pre ++ e.name) e.slot, acc.2)) = .ok acc' ∧
          Adds files (fun p => if e.kind = .tree then pre ++ e.name ++ ['/'] <+: p
              else p = pre ++ e.name)
            (fun p => e.kind = .tree ∧
              (p = pre ++ e.name ∨ ImpliedBelow files dirs (pre ++ e.name ++ ['/']) p)) acc acc' := by
      intro e he acc
      rcases mem_append.mp (hperm.mem_iff.mp he) with he | he
      · have hk := (kind_fileEntries he).1
        obtain ⟨⟨name, slot⟩, hmem, rfl⟩ := mem_map.mp he
        simp only [hk, if_false, false_and, StagedEntry.slot_entry, StagedEntry.name_entry]
        have hget := (mem_fileChildren.mp hmem).1
        refine ⟨_, rfl, ?_, ?_, by simp⟩
        · rintro p rfl -
          rw [get_insert, if_pos rfl, hget]
        · intro p hp
          rw [get_insert, if_neg]
          rintro rfl
          rw [hp rfl] at hget
          exact Option.some_ne_none _ hget.symm
      · obtain ⟨-, hrep⟩ := mem_subs hsubs he
        obtain ⟨acc', hflat, hadd⟩ := ih hrep (isDirPrefix_child pre e.name)
          (acc.1, acc.2.insert (pre ++ e.name))
        simp only [kind_subs hsubs he, if_true, true_and]
        refine ⟨acc', hflat, hadd.inside, hadd.outside, fun p => ?_⟩
        rw [hadd.dirs, mem_insert]
        tauto
    obtain ⟨acc', hfold, hadd⟩ := foldlM_adds hstep acc
    refine ⟨acc', hfold, hadd.congr (fun p hp => ?_) fun p => ?_⟩
    · constructor
      · rintro ⟨e, -, he⟩
        split_ifs at he
        · exact (by simp [append_assoc] : pre <+: pre ++ e.name ++ ['/']).trans he
        · exact ⟨e.name, he.symm⟩
      · rintro ⟨r, rfl⟩
        obtain ⟨slot, hslot⟩ := Option.ne_none_iff_exists'.mp hp
        rcases segment_cases r with hr | ⟨seg, rest, rfl, hseg⟩
        · have hmem : slot.entry r ∈ fileEntries files pre :=
            mem_map.mpr ⟨(r, slot), mem_fileChildren.mpr ⟨hslot, hr⟩, rfl⟩
          refine ⟨slot.entry r, hperm.mem_iff.mpr (mem_append_left _ hmem), ?_⟩
          rw [if_neg (kind_fileEntries hmem).1, StagedEntry.name_entry]
        · have hdir : seg ∈ subs.map TreeEntry.name := by
            rw [hnames, mem_elems]
            exact mem_dirChildren_of_path hseg (.inl (.inl (mem_keys.mpr hp)))
          obtain ⟨e, he, rfl⟩ := mem_map.mp hdir
          refine ⟨e, hperm.mem_iff.mpr (mem_append_right _ he), ?_⟩
          rw [if_pos (kind_subs hsubs he)]
          exact ⟨rest, by simp⟩
    · rw [impliedBelow_iff]
      constructor
      · rintro ⟨e, he, hk, hp⟩
        rcases mem_append.mp (hperm.mem_iff.mp he) with he | he
        · exact absurd hk (kind_fileEntries he).1
        · exact ⟨e.name, (mem_elems _ _).mp (mem_subs hsubs he).1, hp⟩
      · rintro ⟨seg, hseg, hp⟩
        rw [← mem_elems, ← hnames] at hseg
        obtain ⟨e, he, rfl⟩ := mem_map.mp hseg
        exact ⟨e, hperm.mem_iff.mpr (mem_append_right _ he), kind_subs hsubs he, hp⟩

theorem depth_of_flatten {m : ℕ} {pre : Path} (h : Represents B files dirs s n pre d)
    {acc acc' : WorkTree D × DirSet} (hflat : flattenTree s m d pre acc = .ok acc') {r : Path}
    (hr : IsDirPrefix r) {x : Path} (hx : IsPath files dirs (pre ++ r ++ x)) :
    shardDepth B files dirs (pre ++ r) ≤ maxShardDepth := by
  induction n generalizing m pre d acc acc' r with
  | zero => exact absurd h id
  | succ n ih =>
    obtain ⟨subs, hsubs, hb⟩ := h
    obtain _ | m := m
    · simp [flattenTree] at hflat
    rw [flattenTree, treeEntries_of_below hb] at hflat
    obtain ⟨es, hes, hfold⟩ := of_bind hflat
    split_ifs at hes with hdepth
    cases hes
    rcases segment_cases r with hr' | ⟨seg, rest, rfl, hseg⟩
    · have hnil : r = [] := hr.resolve_right fun hl => hr' (mem_of_mem_getLast? hl)
      rwa [hnil, append_nil]
    · have happ : pre ++ (seg ++ '/' :: rest) = (pre ++ seg ++ ['/']) ++ rest := by simp
      have hdir : seg ∈ subs.map TreeEntry.name := by
        rw [names_subs hsubs, mem_elems, mem_dirChildren]
        exact ⟨hseg, .inl ⟨rest ++ x, by simpa using hx⟩⟩
      obtain ⟨e, he, rfl⟩ := mem_map.mp hdir
      obtain ⟨b, c, hstep⟩ := foldlM_ok_mem hfold
        ((perm_sortEntries _).mem_iff.mpr (mem_append_right _ he))
      rw [if_pos (kind_subs hsubs he)] at hstep
      rw [happ] at hx ⊢
      exact ih (mem_subs hsubs he).2 hstep (hr.tail e.name rest) hx

/-! ## Enough fuel -/

variable (s) in
/-- The directories below a tree nest at most `n` deep. -/
def Grounded : (n : ℕ) → D → Prop
  | 0, _ => False
  | n + 1, d => ∃ es, treeEntries s d = .ok es ∧ ∀ e ∈ es, e.kind = .tree → Grounded n e.target

theorem grounded_of_flatten {pre : Path} {acc acc' : WorkTree D × DirSet}
    (h : flattenTree s n d pre acc = .ok acc') : Grounded s n d := by
  induction n generalizing d pre acc acc' with
  | zero => simp [flattenTree] at h
  | succ n ih =>
    rw [flattenTree] at h
    obtain ⟨es, hes, hfold⟩ := of_bind h
    refine ⟨es, hes, fun e he hk => ?_⟩
    obtain ⟨b, c, hstep⟩ := foldlM_ok_mem hfold he
    rw [if_pos hk] at hstep
    exact ih hstep

theorem flattenTree_fuel {m : ℕ} (hm : Grounded s m d) (hn : Grounded s n d) (pre : Path)
    (acc : WorkTree D × DirSet) : flattenTree s m d pre acc = flattenTree s n d pre acc := by
  induction m generalizing n d pre acc with
  | zero => exact absurd hm id
  | succ m ih =>
    cases n with
    | zero => exact absurd hn id
    | succ n =>
      obtain ⟨es, hes, hm⟩ := hm
      obtain ⟨es', hes', hn⟩ := hn
      cases hes.symm.trans hes'
      rw [flattenTree, flattenTree, hes, ok_bind, ok_bind]
      refine foldlM_congr (fun e he b => ?_) acc
      split_ifs with hk
      · exact ih (hm e he hk) (hn e he hk) _ _
      · rfl

theorem mem_keys_of_treeEntries {es : List (TreeEntry D)} (h : treeEntries s d = .ok es) :
    d ∈ s.objects.keys := by
  rw [treeEntries, collectDirEntries] at h
  obtain ⟨o, ho, -⟩ := of_bind h
  exact mem_keys_of_getObject ho

/-- Directories do not nest deeper than there are objects. -/
theorem grounded_size (h : Grounded s n d) : Grounded s s.size d := by
  classical
  let F : Finset D → Finset D := fun S => s.objects.keys.toFinset.filter fun d =>
    ∃ es, treeEntries s d = .ok es ∧ ∀ e ∈ es, e.kind = .tree → e.target ∈ S
  have hmem : ∀ k d, d ∈ F^[k] ∅ ↔ Grounded s k d := by
    intro k
    induction k with
    | zero => simp [Grounded]
    | succ k ih =>
      intro d
      rw [Function.iterate_succ_apply', Finset.mem_filter, mem_toFinset, Grounded]
      simp only [ih]
      exact ⟨And.right, fun h => ⟨mem_keys_of_treeEntries h.choose_spec.1, h⟩⟩
  have hmono : Monotone F := by
    intro S T hST d hd
    obtain ⟨hk, es, hes, hall⟩ := Finset.mem_filter.mp hd
    exact Finset.mem_filter.mpr ⟨hk, es, hes, fun e he hkind => hST (hall e he hkind)⟩
  have hsub := Worklist.iterate_card hmono (fun S => Finset.filter_subset _ _) n
  rw [toFinset_card_of_nodup s.objects.nodup_keys] at hsub
  exact (hmem _ d).mp (hsub ((hmem n d).mpr h))

variable (B files dirs) in
/-- No directory needs more levels than are read. -/
def Shallow : Prop := ∀ pre, IsDirPrefix pre → shardDepth B files dirs pre ≤ maxShardDepth

/-- **Reading a tree that was built** gives the files and the implied directories. -/
theorem flatten_of_shallow (h : Represents B files dirs s n [] d) (hsh : Shallow B files dirs) :
    ∃ dirs', flattenRoot s d = .ok (files, dirs') ∧ ∀ p, p ∈ dirs' ↔ Implied files dirs p := by
  obtain ⟨⟨files', dirs'⟩, hflat, hadd⟩ := flatten_represents h hsh (.inl rfl)
    (SortedMap.empty, SortedSet.empty)
  have hg := grounded_of_flatten hflat
  have hfiles : files' = files := by
    refine ext_get fun p => ?_
    by_cases hp : files.get p = none
    · exact (hadd.outside p fun _ => hp).trans hp.symm
    · exact hadd.inside p nil_prefix hp
  subst hfiles
  refine ⟨dirs', ?_, fun p => ?_⟩
  · rw [flattenRoot, flattenTree_fuel (grounded_size hg) hg, hflat]
  · have hp := hadd.dirs p
    rw [impliedBelow_nil] at hp
    simpa using hp

/-- A tree that was built can be read only if no directory needs too many levels. -/
theorem shallow_of_flatten (h : Represents B files dirs s n [] d) {r : WorkTree D × DirSet}
    (hr : flattenRoot s d = .ok r) : Shallow B files dirs := by
  intro pre hpre
  by_cases hx : ∃ x, IsPath files dirs (pre ++ x)
  · obtain ⟨x, hx⟩ := hx
    exact depth_of_flatten h hr hpre hx
  · rw [shardDepth_of_no_path fun x hx' => hx ⟨x, hx'⟩]
    exact Nat.zero_le _

end Read

/-! ## Clean namespaces of normalised paths -/

variable {p a : Path}

theorem rsplitOnce_eq_none : rsplitOnce p = none ↔ '/' ∉ p := by
  induction p with
  | nil => simp [rsplitOnce]
  | cons c p ih =>
    rw [rsplitOnce]
    cases h : rsplitOnce p with
    | some r =>
      have hp : '/' ∈ p := by
        by_contra hn
        rw [ih.mpr hn] at h
        exact Option.some_ne_none r h.symm
      simp [hp]
    | none =>
      rw [mem_cons, not_or]
      by_cases hc : c = '/'
      · simp [hc]
      · simp [hc, Ne.symm hc, ih.mp h]

theorem rsplitOnce_eq_some {b : Path} (h : rsplitOnce p = some (a, b)) :
    p = a ++ '/' :: b ∧ '/' ∉ b := by
  induction p generalizing a with
  | nil => simp [rsplitOnce] at h
  | cons c p ih =>
    rw [rsplitOnce] at h
    cases hp : rsplitOnce p with
    | some r =>
      rw [hp] at h
      cases h
      obtain ⟨hr, hn⟩ := ih hp
      exact ⟨by rw [hr]; rfl, hn⟩
    | none =>
      rw [hp] at h
      split_ifs at h with hc
      cases h
      exact ⟨by rw [hc]; rfl, rsplitOnce_eq_none.mp hp⟩

theorem mem_ancestorsFrom {n : ℕ} (hn : p.length ≤ n) :
    a ∈ ancestorsFrom n p ↔ a ≠ [] ∧ ∃ x, p = a ++ '/' :: x := by
  induction n generalizing p with
  | zero =>
    obtain rfl := length_eq_zero_iff.mp (Nat.le_zero.mp hn)
    simp [ancestorsFrom]
  | succ n ih =>
    rw [ancestorsFrom]
    cases h : rsplitOnce p with
    | none =>
      refine ⟨fun h => absurd h (by simp), ?_⟩
      rintro ⟨-, x, rfl⟩
      exact absurd (rsplitOnce_eq_none.mp h) (by simp)
    | some r =>
      obtain ⟨parent, b⟩ := r
      obtain ⟨rfl, hb⟩ := rsplitOnce_eq_some h
      -- a parent of the path is the nearest one or one of its parents
      have hcase : (∃ x, parent ++ '/' :: b = a ++ '/' :: x) ↔
          a = parent ∨ ∃ x, parent = a ++ '/' :: x := by
        constructor
        · rintro ⟨x, hx⟩
          rcases append_eq_append_iff.mp hx with ⟨c, rfl, hc⟩ | ⟨c, rfl, hc⟩
          · cases c with
            | nil => exact .inl (by simp)
            | cons y c =>
              exact absurd (by rw [(List.cons.inj hc).2]; simp) hb
          · cases c with
            | nil => exact .inl (by simp)
            | cons y c => exact .inr ⟨c, by rw [(List.cons.inj hc).1]⟩
        · rintro (rfl | ⟨x, rfl⟩)
          · exact ⟨b, rfl⟩
          · exact ⟨x ++ '/' :: b, by simp⟩
      rw [hcase]
      simp only
      split_ifs with hpar
      · subst hpar
        simp
      · have hlen : parent.length ≤ n := by
          simp only [length_append, length_cons] at hn
          omega
        rw [mem_cons, ih hlen]
        constructor
        · rintro (rfl | ⟨ha, hx⟩)
          · exact ⟨hpar, .inl rfl⟩
          · exact ⟨ha, .inr hx⟩
        · rintro ⟨ha, rfl | hx⟩
          · exact .inl rfl
          · exact .inr ⟨ha, hx⟩

theorem mem_pathAncestors : a ∈ pathAncestors p ↔ a ≠ [] ∧ ∃ x, p = a ++ '/' :: x :=
  mem_ancestorsFrom le_rfl

/-- A path as `normalizePath` returns it. -/
def Normalized (p : Path) : Prop := normalizePath p = .ok p

instance (p : Path) : Decidable (Normalized p) := inferInstanceAs (Decidable (_ = _))

theorem Normalized.spec (h : Normalized p) :
    p ≠ [] ∧ p.getLast? ≠ some '/' ∧ p.head? ≠ some '/' := by
  unfold Normalized normalizePath at h
  simp only at h
  split_ifs at h with hbad
  have hp : p.dropWhile (· = '/') = p := Except.ok.inj h
  rw [hp] at hbad
  refine ⟨fun hn => hbad (.inl hn), fun hl => hbad (.inr (.inl hl)), fun hh => ?_⟩
  cases p with
  | nil => simp at hh
  | cons c p =>
    have hc : c = '/' := Option.some.inj hh
    have := length_dropWhile_le (· = '/') p
    rw [dropWhile_cons_of_pos (by simpa using hc)] at hp
    rw [hp] at this
    simp at this

theorem implied_of_normalized (hf : ∀ p ∈ files.keys, Normalized p)
    (hd : ∀ p ∈ dirs, Normalized p) :
    Implied files dirs p ↔ p ∈ dirs ∨ ∃ q, (q ∈ files.keys ∨ q ∈ dirs) ∧ p ∈ pathAncestors q := by
  constructor
  · rintro (⟨x, hx⟩ | ⟨hp, -⟩)
    · have hnorm : Normalized (p ++ '/' :: x) := hx.elim (hf _) (hd _)
      refine .inr ⟨_, hx, mem_pathAncestors.mpr ⟨?_, x, rfl⟩⟩
      rintro rfl
      exact hnorm.spec.2.2 rfl
    · exact .inl hp
  · rintro (hp | ⟨q, hq, hanc⟩)
    · exact .inr ⟨hp, (hd p hp).spec.1, (hd p hp).spec.2.1⟩
    · obtain ⟨-, x, rfl⟩ := mem_pathAncestors.mp hanc
      exact .inl ⟨x, hq⟩

theorem not_implied_of_clean (hf : ∀ p ∈ files.keys, Normalized p) (hd : ∀ p ∈ dirs, Normalized p)
    (hclean : namespacePreflight files dirs = []) : ∀ p ∈ files.keys, ¬ Implied files dirs p := by
  have hcol : ∀ k, k ∉ collisions files dirs := by
    intro k hk
    rw [namespacePreflight, map_eq_nil_iff] at hclean
    have : k ∈ (SortedSet.ofList (collisions files dirs)).elems := by
      rw [mem_elems, mem_ofList]
      exact hk
    rw [hclean] at this
    simp at this
  intro p hp himp
  have hsome : (files.get p).isSome := Option.isSome_iff_ne_none.mpr (mem_keys.mp hp)
  rcases (implied_of_normalized hf hd).mp himp with hdir | ⟨q, hq | hq, hanc⟩
  · refine hcol (toLex (p, p ++ ['/'])) (mem_append_left _ ?_)
    exact mem_flatMap.mpr ⟨p, hp, mem_append_right _ (by simp [hdir])⟩
  · refine hcol (toLex (p, q)) (mem_append_left _ ?_)
    exact mem_flatMap.mpr ⟨q, hq, mem_append_left _
      (mem_map.mpr ⟨p, mem_filter.mpr ⟨hanc, hsome⟩, rfl⟩)⟩
  · refine hcol (toLex (p, q)) (mem_append_right _ ?_)
    exact mem_flatMap.mpr ⟨q, (mem_elems _ _).mpr hq, mem_append_right _
      (mem_map.mpr ⟨p, mem_filter.mpr ⟨hanc, hsome⟩, rfl⟩)⟩

/-- **Building a tree and reading it back** gives the files of a clean namespace, and its
directories closed under parents. -/
theorem flatten_buildSubtree [LinearOrder D] [ToString D] {hash : Stored D → D}
    (hinj : Function.Injective hash) (files : WorkTree D) (dirs : DirSet)
    (hf : ∀ p ∈ files.keys, Normalized p) (hd : ∀ p ∈ dirs, Normalized p)
    (hclean : namespacePreflight files dirs = [])
    (hshard : ∀ pre, IsDirPrefix pre → shardDepth B files dirs pre ≤ maxShardDepth)
    (s : ContentStore hash) :
    ∃ d s', exec (buildSubtree B files dirs []) s = (.ok d, s') ∧ ∃ dirs',
      flattenRoot s' d = .ok (files, dirs') ∧
      ∀ p, p ∈ dirs' ↔ p ∈ dirs ∨ ∃ q, (q ∈ files.keys ∨ q ∈ dirs) ∧ p ∈ pathAncestors q := by
  have hbuild : Buildable B files dirs := ⟨not_implied_of_clean hf hd hclean,
    fun pre hpre => (hshard pre hpre).trans (by decide)⟩
  obtain ⟨s', -, ⟨-, d, hex, hrep⟩ | ⟨hn, -⟩⟩ := buildSubtree_spec B files dirs hinj s
  · obtain ⟨dirs', hflat, hdirs⟩ := flatten_of_shallow hrep hshard
    refine ⟨d, s', hex, dirs', hflat, fun p => ?_⟩
    rw [hdirs, implied_of_normalized hf hd]
  · exact absurd hbuild hn

theorem nameDepth_single (names : List Path) : nameDepth (fun _ _ => false) names = 0 := by
  have hcuts : (Chunk.cuts (fun _ : Path => false) names).length ≤ 1 := by
    induction names with
    | nil => exact Nat.zero_le 1
    | cons n names ih =>
      rw [Chunk.cuts]
      cases names with
      | nil => exact le_rfl
      | cons m names => exact ih
  rw [nameDepth]
  split_ifs
  · exact if_pos hcuts
  · rfl

theorem flatten_buildSubtree_small : ∃ d s',
    exec (buildSubtree (fun _ _ => false) (SortedMap.ofList [("a/b".toList, .file ⟨[7], 0o100644⟩)])
      (SortedSet.ofList ["c".toList]) []) (ContentStore.empty : ContentStore freeHash) =
        (.ok d, s') ∧ ∃ dirs',
    flattenRoot s' d = .ok (SortedMap.ofList [("a/b".toList, .file ⟨[7], 0o100644⟩)], dirs') ∧
    ∀ p, p ∈ dirs' ↔ p ∈ SortedSet.ofList ["c".toList] ∨ ∃ q, (q ∈ (SortedMap.ofList [("a/b".toList,
        StagedEntry.file (⟨[7], 0o100644⟩ : StagedFile FreeDigest))]).keys ∨
          q ∈ SortedSet.ofList ["c".toList]) ∧ p ∈ pathAncestors q :=
  flatten_buildSubtree freeHash_injective _ _ (by decide) (fun p hp => by
      rw [mem_ofList, mem_singleton] at hp
      subst hp
      decide) (by decide) (fun pre _ => (nameDepth_single _).trans_le (Nat.zero_le _)) _

end UldrenLoom.Vcs
