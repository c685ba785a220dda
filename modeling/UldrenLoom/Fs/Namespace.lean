import UldrenLoom.Fs.OpenFiles
import UldrenLoom.Fs.Tree

/-!
# The namespace of a workspace

Files and directories are kept apart, and the operations check the path they write and its parent.
Directories are recorded together with all their parents, and nobody checks these for files.

* **`sane_iff_clear`**: along a run of successful operations the namespace stays tidy exactly if no
  file was in the way of a directory.
* **`Sample.file_above_directory`**: a directory recorded below a file.
-/

namespace UldrenLoom.Fs

open ByteString Fallible Effect Subtree Names Vcs List SortedMap

variable {D : Type} [LinearOrder D] {hash : Stored D → D}

/-! ## Tidy namespaces -/

section

variable {L L' : Loom hash} {ns : WorkspaceId}

def names (L : Loom hash) (ns : WorkspaceId) : Names Char :=
  ⟨{p | slot L ns p ≠ none}, {p | p ∈ L.dirsOf ns}⟩

/-- **A tidy namespace** has normalised paths, a directory above each, and nothing that is both a
file and a directory. -/
structure Tidy (L : Loom hash) (ns : WorkspaceId) : Prop where
  normalized : ∀ p, slot L ns p ≠ none ∨ p ∈ L.dirsOf ns → Normalized p
  disjoint : ∀ p, slot L ns p ≠ none → p ∉ L.dirsOf ns
  noFileAbove : ∀ p q, slot L ns p ≠ none → slot L ns q ≠ none ∨ q ∈ L.dirsOf ns →
    p ∉ pathAncestors q
  parent : ∀ p, slot L ns p ≠ none ∨ p ∈ L.dirsOf ns → parentExists L ns p = true

variable {p : Path}

theorem mem_pathAncestors_iff_under {a : Path} (hp : Normalized p) :
    a ∈ pathAncestors p ↔ Under '/' a p := by
  rw [mem_pathAncestors, under_iff, and_iff_right_iff_imp]
  rintro ⟨x, rfl⟩
  exact (normalized_join.mp hp).1.spec.1

theorem dirExists_iff (hp : Normalized p) : dirExists L ns p = true ↔ p ∈ L.dirsOf ns := by
  simp [dirExists, hp.spec.1]

theorem parentExists_iff (hp : Normalized p)
    (hclosed : ∀ b ∈ L.dirsOf ns, ∀ a, Under '/' a b → a ∈ L.dirsOf ns) :
    parentExists L ns p = true ↔ ∀ a, Under '/' a p → a ∈ L.dirsOf ns := by
  unfold parentExists
  cases hr : rsplitOnce p with
  | none => simp [not_under_of_rsplitOnce hr]
  | some r =>
    obtain ⟨b, x⟩ := r
    have hb : Normalized b := by
      obtain ⟨rfl, -⟩ := rsplitOnce_eq_some hr
      exact (normalized_join.mp hp).1
    simp only [dirExists_iff hb, under_parent hr]
    refine ⟨fun h a ha => ?_, fun h => h b (.inl rfl)⟩
    rcases ha with rfl | ha
    · exact h
    · exact hclosed b h a ha

theorem tidy_iff : Tidy L ns ↔
    (∀ p, slot L ns p ≠ none ∨ p ∈ L.dirsOf ns → Normalized p) ∧ (names L ns).WellFormed '/' := by
  constructor
  · intro h
    refine ⟨h.normalized, h.disjoint, fun p hp => ?_⟩
    -- upwards from a path, parent by parent
    induction hn : p.length using Nat.strong_induction_on generalizing p with
    | _ n ih =>
      intro a ha
      have hparent := h.parent p hp
      unfold parentExists at hparent
      cases hr : rsplitOnce p with
      | none => exact absurd ha (not_under_of_rsplitOnce hr)
      | some r =>
        obtain ⟨b, x⟩ := r
        obtain ⟨rfl, -⟩ := rsplitOnce_eq_some hr
        have hb : Normalized b := (normalized_join.mp (h.normalized _ hp)).1
        rw [hr] at hparent
        have hdir : b ∈ L.dirsOf ns := (dirExists_iff hb).mp hparent
        rcases (under_parent hr).mp ha with rfl | ha
        · exact hdir
        · refine ih b.length ?_ b (.inr hdir) rfl a ha
          simp [← hn]
  · rintro ⟨hnorm, hwf⟩
    refine ⟨hnorm, hwf.disjoint, fun p q hp hq hanc => ?_, fun p hp => ?_⟩
    · exact hwf.not_under hp hq ((mem_pathAncestors_iff_under (hnorm q hq)).mp hanc)
    · exact (parentExists_iff (hnorm p hp) fun b hb => hwf.closed b (.inr hb)).mpr
        (hwf.closed p hp)

theorem tidy_of_empty (hwork : L.workOf ns = SortedMap.empty)
    (hdirs : L.dirsOf ns = SortedSet.empty) : Tidy L ns := by
  have hnone : ∀ p, ¬ (slot L ns p ≠ none ∨ p ∈ L.dirsOf ns) := by simp [slot, hwork, hdirs]
  exact ⟨fun p hp => absurd hp (hnone p), fun p hp => absurd (.inl hp) (hnone p),
    fun p _ hp => absurd (.inl hp) (hnone p), fun p hp => absurd hp (hnone p)⟩

/-- **A tidy namespace can be committed.** -/
theorem Tidy.preflight (h : Tidy L ns) : namespacePreflight (L.workOf ns) (L.dirsOf ns) = [] := by
  have hkey : ∀ p, p ∈ (L.workOf ns).keys ↔ slot L ns p ≠ none := fun p => mem_keys
  have hsome : ∀ p, ((L.workOf ns).get p).isSome ↔ slot L ns p ≠ none :=
    fun p => Option.isSome_iff_ne_none
  have hcol : ∀ k, k ∉ collisions (L.workOf ns) (L.dirsOf ns) := by
    intro k hk
    simp only [collisions, mem_append, mem_flatMap, mem_map, mem_filter, hkey,
      hsome, SortedSet.mem_elems] at hk
    rcases hk with ⟨p, hp, ⟨a, ⟨hanc, ha⟩, -⟩ | hk⟩ | ⟨p, hp, hk | ⟨a, ⟨hanc, ha⟩, -⟩⟩
    · exact h.noFileAbove a p ha (.inl hp) hanc
    · rw [if_neg (h.disjoint p hp)] at hk
      cases hk
    · rw [if_neg fun hs => h.disjoint p hs hp] at hk
      cases hk
    · exact h.noFileAbove a p ha (.inr hp) hanc
  rw [namespacePreflight, map_eq_nil_iff]
  refine eq_nil_iff_forall_not_mem.mpr fun k hk => hcol k ?_
  rwa [SortedSet.mem_elems, SortedSet.mem_ofList] at hk

/-! ## Edits of the names -/

/-- Directories were recorded at `T` and files put at `W`; files `R` and directories `Q` were
removed. -/
structure Edited (ns : WorkspaceId) (L L' : Loom hash) (T W R Q : Set Path) : Prop where
  files : ∀ p, slot L' ns p ≠ none ↔ (slot L ns p ≠ none ∨ p ∈ W) ∧ p ∉ R
  dirs : ∀ p, p ∈ L'.dirsOf ns ↔ (p ∈ L.dirsOf ns ∨ p ∈ upward '/' T) ∧ p ∉ Q
  recorded : ∀ t ∈ T, Normalized t
  put : ∀ p ∈ W, Normalized p ∧ ¬ (p ∈ L.dirsOf ns ∨ p ∈ upward '/' T) ∧
    ∀ a, Under '/' a p → a ∈ L.dirsOf ns ∨ a ∈ upward '/' T
  below : ∀ a ∈ Q, ∀ q, Under '/' a q → q ∈ R ∧ q ∈ Q

variable {T W R Q : Set Path}

/-- **When an edit keeps a namespace tidy.** -/
theorem Edited.tidy_iff (he : Edited ns L L' T W R Q) (ht : Tidy L ns) :
    Tidy L' ns ↔ ∀ a ∈ upward '/' T, slot L ns a ≠ none → a ∈ Q ∨ a ∈ R := by
  have hnames : names L' ns = (names L ns).edit '/' T W R Q := by
    unfold names Names.edit
    congr 1 <;> ext p
    · exact he.files p
    · exact he.dirs p
  have hnorm : ∀ p, slot L' ns p ≠ none ∨ p ∈ L'.dirsOf ns → Normalized p := by
    intro p hp
    rw [he.files, he.dirs] at hp
    rcases hp with ⟨hp | hp, -⟩ | ⟨hp | ⟨t, htT, hat⟩, -⟩
    · exact ht.normalized p (.inl hp)
    · exact (he.put p hp).1
    · exact ht.normalized p (.inr hp)
    · exact (he.recorded t htT).above hat
  rw [Fs.tidy_iff, and_iff_right hnorm, hnames]
  exact wellFormed_edit_iff (Fs.tidy_iff.mp ht).2 (fun p hp => (he.put p hp).2) he.below

/-! ## What successful operations do -/

section Runs

variable {L₁ : Loom hash} {p path s d : Path}

theorem put_of_check (ht : Tidy L ns) (hp : Normalized p)
    (hdirs : ∀ q, q ∈ L₁.dirsOf ns ↔ q ∈ L.dirsOf ns ∨ q ∈ upward '/' T)
    (hfree : dirExists L₁ ns p = false) (hparent : parentExists L₁ ns p = true) :
    Normalized p ∧ ¬ (p ∈ L.dirsOf ns ∨ p ∈ upward '/' T) ∧
      ∀ a, Under '/' a p → a ∈ L.dirsOf ns ∨ a ∈ upward '/' T := by
  have hclosed : ∀ b ∈ L₁.dirsOf ns, ∀ a, Under '/' a b → a ∈ L₁.dirsOf ns := by
    intro b hb a ha
    rw [hdirs] at hb ⊢
    exact hb.imp (fun hb => (Fs.tidy_iff.mp ht).2.closed b (.inr hb) a ha)
      fun hb => upward_closed hb ha
  refine ⟨hp, fun h => ?_, fun a ha => (hdirs a).mp ((parentExists_iff hp hclosed).mp hparent a ha)⟩
  rw [← hdirs, ← dirExists_iff hp, hfree] at h
  cases h

theorem upward_empty : upward '/' (∅ : Set Path) = ∅ := by simp [upward]

theorem edited_put (ht : Tidy L ns) (hp : Normalized p) (hfree : dirExists L ns p = false)
    (hparent : parentExists L ns p = true)
    (hfiles : ∀ q, slot L' ns q ≠ none ↔ slot L ns q ≠ none ∨ q = p)
    (hdirs : L'.dirsOf ns = L.dirsOf ns) : Edited ns L L' ∅ {p} ∅ ∅ := by
  refine ⟨fun q => ?_, fun q => ?_, by simp, fun q hq => ?_,
    by simp⟩
  · simp [hfiles]
  · simp [hdirs, upward_empty]
  · obtain rfl : q = p := hq
    exact put_of_check ht hp (by simp [upward_empty]) hfree hparent

theorem slot_putFileSlot_ne_none {q : Path} (h : Heap hash) (addr : D) (size : ℕ) (mode : UInt32) :
    slot (putFileSlot { L with heap := h } ns p addr size mode) ns q ≠ none ↔
      slot L ns q ≠ none ∨ q = p := by
  rw [slot_putFileSlot]
  by_cases hq : p = q
  · simp [hq]
  · simp only [true_and, if_neg hq, or_iff_left (Ne.symm hq)]
    rfl

theorem edited_putFileSlot (ht : Tidy L ns) (hp : Normalized p)
    (hcheck : checkFileTarget L ns p = .ok ()) (h : Heap hash) (addr : D) (size : ℕ)
    (mode : UInt32) :
    Edited ns L (putFileSlot { L with heap := h } ns p addr size mode) ∅ {p} ∅ ∅ :=
  edited_put ht hp (checkFileTarget_eq_ok.mp hcheck).1 (checkFileTarget_eq_ok.mp hcheck).2
    (fun _ => slot_putFileSlot_ne_none h addr size mode) rfl

variable [ToString D] {env : Env hash}

omit [ToString D] in
theorem edited_writeFile (ht : Tidy L ns) {bytes : Bytes} {mode : UInt32}
    (h : exec (writeFile env ns path bytes mode) L = (.ok (), L')) :
    ∃ p, Edited ns L L' ∅ {p} ∅ ∅ := by
  obtain ⟨p, hp, h⟩ := exec_lift_bind_eq_ok.mp h
  obtain ⟨⟨⟩, -, h⟩ := exec_lift_bind_eq_ok.mp h
  rw [writeFileNorm, exec_get_bind] at h
  obtain ⟨⟨⟩, hcheck, h⟩ := exec_lift_bind_eq_ok.mp h
  obtain ⟨⟨⟩, -, h⟩ := exec_lift_bind_eq_ok.mp h
  rw [exec_storeAt] at h
  obtain rfl := (Prod.mk.inj h).2
  exact ⟨p, edited_putFileSlot ht (normalized_of_normalizePath hp) hcheck _ _ _ _⟩

theorem edited_appendFile (ht : Tidy L ns) {bytes : Bytes}
    (h : exec (appendFile env ns path bytes) L = (.ok (), L')) : ∃ p, Edited ns L L' ∅ {p} ∅ ∅ := by
  obtain ⟨p, hp, h⟩ := exec_lift_bind_eq_ok.mp h
  obtain ⟨⟨⟩, -, h⟩ := exec_lift_bind_eq_ok.mp h
  rw [exec_get_bind] at h
  obtain ⟨⟨⟩, hcheck, h⟩ := exec_lift_bind_eq_ok.mp h
  rw [exec_get_bind] at h
  obtain ⟨r, -, h⟩ := exec_lift_bind_eq_ok.mp h
  obtain ⟨content, -, h⟩ := exec_lift_bind_eq_ok.mp h
  rw [exec_storeAt] at h
  obtain rfl := (Prod.mk.inj h).2
  exact ⟨p, edited_putFileSlot ht (normalized_of_normalizePath hp) hcheck _ _ _ _⟩

theorem edited_editFile (ht : Tidy L ns) {plan : Option D → ℕ → Result (EditPlan D)}
    (h : exec (editFile env ns path plan) L = (.ok (), L')) : ∃ p, Edited ns L L' ∅ {p} ∅ ∅ := by
  obtain ⟨p, hp, h⟩ := exec_lift_bind_eq_ok.mp h
  obtain ⟨⟨⟩, -, h⟩ := exec_lift_bind_eq_ok.mp h
  rw [exec_get_bind] at h
  obtain ⟨⟨⟩, hcheck, h⟩ := exec_lift_bind_eq_ok.mp h
  rw [exec_get_bind] at h
  obtain ⟨r, -, h⟩ := exec_lift_bind_eq_ok.mp h
  obtain ⟨plan, -, h⟩ := exec_lift_bind_eq_ok.mp h
  obtain ⟨⟨addr, size⟩, L₁, hbuild, h⟩ := exec_bind_eq_ok.mp h
  obtain rfl := (Prod.mk.inj hbuild).2
  obtain rfl := (Prod.mk.inj h).2
  exact ⟨p, edited_putFileSlot ht (normalized_of_normalizePath hp) hcheck _ _ _ _⟩

omit [ToString D] in
theorem edited_symlink (ht : Tidy L ns) {target : Bytes} {linkPath : Path}
    (h : exec (symlink env ns target linkPath) L = (.ok (), L')) :
    ∃ p, Edited ns L L' ∅ {p} ∅ ∅ := by
  obtain ⟨p, hp, h⟩ := exec_lift_bind_eq_ok.mp h
  obtain ⟨⟨⟩, -, h⟩ := exec_lift_bind_eq_ok.mp h
  rw [exec_get_bind] at h
  obtain ⟨⟨⟩, hcheck, h⟩ := exec_lift_bind_eq_ok.mp h
  rw [exec_storeAt] at h
  obtain rfl := (Prod.mk.inj h).2
  unfold checkLinkTarget at hcheck
  split_ifs at hcheck with hfree hslot htarget hparent
  exact ⟨p, edited_put ht (normalized_of_normalizePath hp) (Bool.eq_false_iff.mpr hfree) hparent
    (fun _ => slot_putFileSlot_ne_none _ _ _ _) rfl⟩

omit [ToString D] in
theorem Edited.remove (he : Edited ns L L₁ T W ∅ ∅)
    (hfiles : ∀ p, slot L' ns p ≠ none ↔ slot L₁ ns p ≠ none ∧ p ∉ R)
    (hdirs : ∀ p, p ∈ L'.dirsOf ns ↔ p ∈ L₁.dirsOf ns ∧ p ∉ Q)
    (hbelow : ∀ a ∈ Q, ∀ q, Under '/' a q → q ∈ R ∧ q ∈ Q) : Edited ns L L' T W R Q := by
  refine ⟨fun p => ?_, fun p => ?_, he.recorded, he.put, hbelow⟩
  · rw [hfiles, he.files]
    simp
  · rw [hdirs, he.dirs]
    simp

omit [ToString D] in
theorem Edited.removeFileNorm {L₁ : Loom hash} (he : Edited ns L L₁ T W ∅ ∅) (p : Path) :
    Edited ns L (removeFileNorm L₁ ns p) T W {p} ∅ := by
  refine he.remove (fun q => ?_) (fun q => ?_) (by simp)
  · rw [slot_removeFileNorm]
    by_cases hq : p = q
    · simp [hq]
    · simp [hq, Ne.symm hq]
  · simp only [Set.mem_empty_iff_false, not_false_eq_true, and_true]
    rfl

omit [ToString D] in
theorem removeFile_ok (h : exec (removeFile env ns path) L = (.ok (), L')) :
    ∃ p, normalizePath path = .ok p ∧ L' = removeFileNorm L ns p := by
  obtain ⟨p, hp, h⟩ := exec_lift_bind_eq_ok.mp h
  obtain ⟨⟨⟩, -, h⟩ := exec_lift_bind_eq_ok.mp h
  exact ⟨p, hp, (Prod.mk.inj h).2.symm⟩

omit [ToString D] in
theorem edited_removeFile (h : exec (removeFile env ns path) L = (.ok (), L')) :
    ∃ p, Edited ns L L' ∅ ∅ {p} ∅ := by
  obtain ⟨p, -, rfl⟩ := removeFile_ok h
  refine ⟨p, Edited.removeFileNorm ⟨fun q => by simp, fun q => by simp [upward_empty], ?_, ?_, ?_⟩ p⟩
  all_goals exact by simp

omit [ToString D] in
theorem edited_refl (ht : Tidy L ns) {t : Path} (hdir : t ∈ L.dirsOf ns) :
    Edited ns L L {t} ∅ ∅ ∅ := by
  refine ⟨fun p => by simp, fun p => ?_, fun q hq => ?_, by simp, by simp⟩
  · simp only [Set.mem_empty_iff_false, not_false_eq_true, and_true]
    refine (or_iff_left_of_imp ?_).symm
    rintro ⟨t, rfl, rfl | hp⟩
    · exact hdir
    · exact (Fs.tidy_iff.mp ht).2.closed t (.inr hdir) p hp
  · obtain rfl : q = t := hq
    exact ht.normalized q (.inr hdir)

variable {recursive : Bool}

omit [ToString D] in
theorem edited_createDirectory (ht : Tidy L ns) {norm : Path} (hp : normalizePath path = .ok norm)
    (h : exec (createDirectory ns path recursive) L = (.ok (), L')) :
    Edited ns L L' {norm} ∅ ∅ ∅ := by
  have hnorm := normalized_of_normalizePath hp
  rw [createDirectory, exec_lift_bind_of_ok hp] at h
  obtain ⟨⟨⟩, -, h⟩ := exec_lift_bind_eq_ok.mp h
  rw [exec_get_bind] at h
  split_ifs at h with hfile hdir hparent
  · cases (Prod.mk.inj h).1
  · obtain rfl := (Prod.mk.inj h).2
    exact edited_refl ht ((dirExists_iff hnorm).mp hdir)
  · cases (Prod.mk.inj h).1
  · obtain rfl := (Prod.mk.inj h).2
    refine ⟨fun p => ?_, fun p => ?_, ?_, by simp, by simp⟩
    · simp only [Set.mem_empty_iff_false, or_false, not_false_eq_true, and_true]
      rfl
    · rw [mem_recordDir hnorm]
      simp [upward]
    · rintro t rfl
      exact hnorm

omit [ToString D] in
theorem remove_subtree (hnorm : ∀ p, slot L₁ ns p ≠ none → Normalized p)
    (h : exec (removeFiles env ns (childFiles ns L₁ s) >>= fun _ =>
      modify fun L => dropDirs L ns s) L₁ = (.ok (), L')) :
    (∀ p, slot L' ns p ≠ none ↔ slot L₁ ns p ≠ none ∧ ¬ Under '/' s p) ∧
      ∀ p, p ∈ L'.dirsOf ns ↔ p ∈ L₁.dirsOf ns ∧ ¬ AtOrUnder '/' s p := by
  obtain ⟨⟨⟩, L₂, hrem, h⟩ := exec_bind_eq_ok.mp h
  obtain rfl := (Prod.mk.inj h).2
  have hkeys : ∀ key ∈ childFiles ns L₁ s, Normalized key :=
    fun key hkey => hnorm key (mem_childFiles.mp hkey).1
  rcases removeFiles_ends hkeys L₁ with ⟨-, hrun⟩ | ⟨pre, key, post, e, -, -, -, hrun⟩
  · rw [hrun] at hrem
    obtain rfl := (Prod.mk.inj hrem).2
    refine ⟨fun p => ?_, fun p => ?_⟩
    · change slot (removedFiles ns L₁ _) ns p ≠ none ↔ _
      rw [slot_removedFiles]
      by_cases hp : slot L₁ ns p = none
      · simp [hp]
      · simp [mem_childFiles, hp]
    · rw [mem_dropDirs, dirsOf_removedFiles]
  · rw [hrun] at hrem
    cases (Prod.mk.inj hrem).1

theorem atOrUnder_below {a q : Path} (ha : AtOrUnder '/' s a) (hq : Under '/' a q) :
    Under '/' s q ∧ AtOrUnder '/' s q :=
  ⟨ha.trans_under hq, .inr (ha.trans_under hq)⟩

omit [ToString D] in
theorem edited_removeDirectory (ht : Tidy L ns)
    (h : exec (removeDirectory env ns path recursive) L = (.ok (), L')) :
    ∃ s, Edited ns L L' ∅ ∅ {q | Under '/' s q} {q | AtOrUnder '/' s q} := by
  obtain ⟨s, -, h⟩ := exec_lift_bind_eq_ok.mp h
  obtain ⟨⟨⟩, -, h⟩ := exec_lift_bind_eq_ok.mp h
  obtain ⟨-, h⟩ := exec_ite_throw_eq_ok.mp h
  obtain ⟨-, h⟩ := exec_ite_throw_eq_ok.mp h
  obtain ⟨hfiles, hdirs⟩ := remove_subtree (fun p hp => ht.normalized p (.inl hp)) h
  refine ⟨s, fun p => ?_, fun p => ?_, by simp,
    by simp, fun a ha q hq => atOrUnder_below ha hq⟩
  · simp [hfiles]
  · simp [hdirs, upward_empty]

/-! ## Copies and moves -/

variable (L ns) in
omit [ToString D] in
/-- Where the directories at and below a directory are copied to. -/
def copiedDirs (s d : Path) : List Path := d :: (subDirs ns L s).map (relocate s d)

omit [ToString D] in
theorem mem_recordDirs_iff (ht : Tidy L ns) (hd : Normalized d) (q : Path) :
    q ∈ (recordDirs ns L s d (subDirs ns L s)).dirsOf ns ↔
      q ∈ L.dirsOf ns ∨ q ∈ upward '/' {t | t ∈ copiedDirs L ns s d} :=
  mem_recordDirs hd fun _ hsd =>
    ⟨ht.normalized _ (.inr (mem_subDirs.mp hsd).1), (mem_subDirs.mp hsd).2⟩

theorem normalized_copy (ht : Tidy L ns) (hd : Normalized d) {files : List CopiedFile}
    (hfiles : snapshotFiles env ns L s = .ok files) {f : CopiedFile} (hf : f ∈ files) :
    Normalized (d ++ '/' :: f.1) := by
  obtain ⟨rfl, -⟩ := snapshotFiles_eq_ok hfiles
  obtain ⟨key, hkey, rfl⟩ := mem_map.mp hf
  obtain ⟨hslot, hunder⟩ := mem_childFiles.mp hkey
  rw [copyOf_path hunder]
  exact hd.relocate (ht.normalized key (.inl hslot)) (.inr hunder)

theorem copyPath_ok {src dst : Path} (hs : normalizePath src = .ok s)
    (hd : normalizePath dst = .ok d) (ht : Tidy L ns)
    (h : exec (copyPath env ns src dst recursive) L = (.ok (), L')) :
    (isFile L ns s = true ∧ Writable env ns L d ∧
      ∃ bytes mode, L' = written env ns L d bytes mode) ∨
    (isFile L ns s = false ∧ s ∈ L.dirsOf ns ∧ ∃ files, snapshotFiles env ns L s = .ok files ∧
      (∀ f ∈ files, Writable env ns (recordDirs ns L s d (subDirs ns L s)) (d ++ '/' :: f.1)) ∧
      L' = files.foldl (writtenCopy env ns d) (recordDirs ns L s d (subDirs ns L s))) := by
  have hsn := normalized_of_normalizePath hs
  have hdn := normalized_of_normalizePath hd
  rw [copyPath, exec_lift_bind_of_ok hs, exec_lift_bind_of_ok hd, exec_get_bind] at h
  by_cases hfile : isFile L ns s = true
  · rw [if_pos hfile] at h
    obtain ⟨bytes, -, h⟩ := exec_lift_bind_eq_ok.mp h
    by_cases hw : Writable env ns L d
    · rw [exec_writeFile_of_writable hdn hw] at h
      exact .inl ⟨hfile, hw, bytes, _, (Prod.mk.inj h).2.symm⟩
    · obtain ⟨e, he⟩ := exec_writeFile_of_not_writable hdn hw bytes
        ((fileMode L ns s).getD defaultFileMode)
      rw [he] at h
      cases (Prod.mk.inj h).1
  rw [if_neg hfile] at h
  obtain ⟨hdir, h⟩ := exec_ite_throw_eq_ok.mp h
  obtain ⟨-, h⟩ := exec_ite_throw_eq_ok.mp h
  obtain ⟨files, hfiles, h⟩ := exec_lift_bind_eq_ok.mp h
  rw [exec_modify_bind] at h
  rcases writeFiles_ends (fun f hf => normalized_copy ht hdn hfiles hf)
    (recordDirs ns L s d (subDirs ns L s)) with ⟨hall, hrun⟩ | ⟨pre, f, post, e, -, -, -, hrun⟩
  · rw [hrun] at h
    exact .inr ⟨Bool.eq_false_iff.mpr hfile, (dirExists_iff hsn).mp (not_not.mp hdir), files, hfiles,
      hall, (Prod.mk.inj h).2.symm⟩
  · rw [hrun] at h
    cases (Prod.mk.inj h).1

theorem edited_copy (ht : Tidy L ns) (hd : Normalized d) {files : List CopiedFile}
    (hfiles : snapshotFiles env ns L s = .ok files)
    (hall : ∀ f ∈ files, Writable env ns (recordDirs ns L s d (subDirs ns L s)) (d ++ '/' :: f.1)) :
    Edited ns L (files.foldl (writtenCopy env ns d) (recordDirs ns L s d (subDirs ns L s)))
      {t | t ∈ copiedDirs L ns s d} {p | ∃ f ∈ files, d ++ '/' :: f.1 = p} ∅ ∅ := by
  have hslot : ∀ p, slot (recordDirs ns L s d (subDirs ns L s)) ns p = slot L ns p := fun p =>
    recordDirs_frame (fun L => slot L ns p) (fun _ _ => rfl) L s d _
  refine ⟨fun p => ?_, fun p => ?_, fun t htT => ?_, ?_, by simp⟩
  · rw [slot_foldl_ne_none, hslot]
    simp
  · rw [dirsOf_foldl_writtenCopy, mem_recordDirs_iff ht hd]
    simp
  · rcases mem_cons.mp htT with rfl | htT
    · exact hd
    · obtain ⟨sd, hsd, rfl⟩ := mem_map.mp htT
      obtain ⟨hdir, hunder⟩ := mem_subDirs.mp hsd
      exact hd.relocate (ht.normalized sd (.inr hdir)) hunder
  · rintro p ⟨f, hf, rfl⟩
    exact put_of_check ht (normalized_copy ht hd hfiles hf) (mem_recordDirs_iff ht hd)
      (hall f hf).2.1 (hall f hf).2.2.1

omit [ToString D] in
theorem Edited.slot_of_dir (he : Edited ns L L' T W R Q) (ht : Tidy L ns) (hdir : s ∈ L.dirsOf ns) :
    slot L' ns s = none := by
  by_contra hslot
  rcases ((he.files s).mp hslot).1 with hold | hnew
  · exact ht.disjoint s hold hdir
  · exact (he.put s hnew).2.1 (.inl hdir)

omit [ToString D] in
theorem Edited.normalized (he : Edited ns L L' T W R Q) (ht : Tidy L ns) {p : Path}
    (hp : slot L' ns p ≠ none) : Normalized p :=
  ((he.files p).mp hp).1.elim (fun hold => ht.normalized p (.inl hold))
    fun hnew => (he.put p hnew).1

omit [ToString D] in
theorem edited_written (ht : Tidy L ns) (hd : Normalized d) (hw : Writable env ns L d)
    (bytes : Bytes) (mode : UInt32) : Edited ns L (written env ns L d bytes mode) ∅ {d} ∅ ∅ :=
  edited_put ht hd hw.2.1 hw.2.2.1 (fun _ => slot_putFileSlot_ne_none _ _ _ _) rfl

/-- **What a move does to the names.** -/
theorem edited_movePath (ht : Tidy L ns) {src dst : Path} (hs : normalizePath src = .ok s)
    (hd : normalizePath dst = .ok d) (h : exec (movePath env ns src dst) L = (.ok (), L')) :
    (isFile L ns s = true ∧ Edited ns L L' ∅ {d} {s} ∅) ∨
    (isFile L ns s = false ∧ ∃ W, Edited ns L L' {t | t ∈ copiedDirs L ns s d} W
      {q | Under '/' s q} {q | AtOrUnder '/' s q}) := by
  have hsn := normalized_of_normalizePath hs
  have hdn := normalized_of_normalizePath hd
  rw [movePath, exec_lift_bind_of_ok hs] at h
  obtain ⟨⟨⟩, -, h⟩ := exec_lift_bind_eq_ok.mp h
  rw [exec_lift_bind_of_ok hd] at h
  obtain ⟨⟨⟩, -, h⟩ := exec_lift_bind_eq_ok.mp h
  obtain ⟨⟨⟩, L₁, hcopy, h⟩ := exec_bind_eq_ok.mp h
  rw [removeSource, exec_get_bind] at h
  rcases copyPath_ok hs hd ht hcopy with ⟨hfile, hw, bytes, mode, rfl⟩ | ⟨hfile, hdir, files, hfiles,
    hall, rfl⟩
  · refine .inl ⟨hfile, ?_⟩
    have hstill : isFile (written env ns L d bytes mode) ns s = true := by
      unfold isFile at hfile ⊢
      rw [slot_written]
      split_ifs
      · rfl
      · exact hfile
    rw [if_pos hstill] at h
    obtain ⟨p, hp, rfl⟩ := removeFile_ok h
    obtain rfl := Except.ok.inj (hp.symm.trans hsn)
    exact (edited_written ht hdn hw bytes mode).removeFileNorm p
  · refine .inr ⟨hfile, {p | ∃ f ∈ files, d ++ '/' :: f.1 = p}, ?_⟩
    have he := edited_copy ht hdn hfiles hall
    have hnot : ¬ isFile (files.foldl (writtenCopy env ns d)
        (recordDirs ns L s d (subDirs ns L s))) ns s = true := by
      unfold isFile
      rw [he.slot_of_dir ht hdir]
      simp
    rw [if_neg hnot] at h
    obtain ⟨hrest, hdirs⟩ := remove_subtree (fun p hp => he.normalized ht hp) h
    exact he.remove hrest hdirs fun a ha q hq => atOrUnder_below ha hq

/-! ## Opening files -/

variable {mode : OpenMode}

omit [ToString D] in
theorem openHandle_ok {id hd : UInt64} {ino : Inode D} (hino : L₁.inodes.get id = some ino)
    (hns : ino.ns = ns) (hpath : ino.path = some p) (hslot : slot L₁ ns p ≠ none)
    (h : exec (openHandle env (.ok ()) id mode) L₁ = (.ok hd, L')) :
    L'.dirsOf ns = L₁.dirsOf ns ∧ (∀ q, slot L' ns q ≠ none ↔ slot L₁ ns q ≠ none) ∧
      L₁.nextHandle.toNat + 1 < 2 ^ 64 := by
  unfold openHandle at h
  split_ifs at h
  · rw [exec_lift_bind_of_ok rfl, exec_bind_of_ok (exec_storeOnHeap [])] at h
    obtain ⟨⟨⟩, L₂, happly, h⟩ := exec_bind_eq_ok.mp h
    rw [exec_applyInodeContent] at happly
    rw [hino] at happly
    obtain rfl := (Prod.mk.inj happly).2
    obtain ⟨-, rfl, hroom⟩ := exec_allocHandle_ok h
    refine ⟨rfl, fun q => ?_, hroom⟩
    subst hns
    unfold applied
    rw [hpath]
    change slot (setSlot L₁ ino.ns p _) ino.ns q ≠ none ↔ _
    rw [slot_setSlot]
    by_cases hq : p = q
    · subst hq
      simp [hslot]
    · simp [hq]
  · obtain ⟨-, rfl, hroom⟩ := exec_allocHandle_ok h
    exact ⟨rfl, fun q => Iff.rfl, hroom⟩

omit [ToString D] in
theorem dirExists_of_openChecks (h : openChecks env ns L p mode = .ok ()) :
    dirExists L ns p = false := by
  have hlast : (if dirExists L ns p then .error (isDirectory p) else .ok () :
      Result Unit) = .ok () := by
    cases mode <;> exact (of_bind (of_bind (of_bind h).choose_spec.2
      ).choose_spec.2).choose_spec.2
  split_ifs at hlast with hdir
  exact Bool.eq_false_iff.mpr hdir

/-- **What opening a path does to the names**: there may be one more file. -/
theorem fileOpen_ok (hl : Linked {ns} L) (ht : Tidy L ns) {hd : UInt64}
    (h : exec (fileOpen env ns path mode) L = (.ok hd, L')) :
    (∃ p, Edited ns L L' ∅ {p} ∅ ∅) ∧ L.nextHandle.toNat + 1 < 2 ^ 64 := by
  obtain ⟨p, hp, h⟩ := exec_lift_bind_eq_ok.mp h
  rw [exec_get_bind] at h
  obtain ⟨⟨⟩, hchecks, h⟩ := exec_lift_bind_eq_ok.mp h
  have hnorm := normalized_of_normalizePath hp
  have hfree := dirExists_of_openChecks hchecks
  obtain ⟨id, L₁, hopen, h⟩ := exec_bind_eq_ok.mp h
  -- the inode is linked to the path, and a file is there
  obtain ⟨ino, hino, hns, hpath, hdirs, hnext, hslot, hfiles, hparent⟩ :
      ∃ ino, L₁.inodes.get id = some ino ∧ ino.ns = ns ∧ ino.path = some p ∧
        L₁.dirsOf ns = L.dirsOf ns ∧ L₁.nextHandle = L.nextHandle ∧ slot L₁ ns p ≠ none ∧
        (∀ q, slot L₁ ns q ≠ none ↔ slot L ns q ≠ none ∨ q = p) ∧ parentExists L ns p = true := by
    have hsame : slot L ns p ≠ none → ∀ q, slot L ns q ≠ none ↔ slot L ns q ≠ none ∨ q = p := by
      intro hslot q
      refine (or_iff_left_of_imp ?_).symm
      rintro rfl
      exact hslot
    rw [openInode, exec_get_bind] at hopen
    cases hlink : L.pathToInode.get (toLex (ns, p)) with
    | some id₀ =>
      rw [hlink] at hopen
      dsimp only at hopen
      obtain ⟨ino, hino, hns, hpath⟩ := hl.back rfl hlink
      have hslot : slot L ns p ≠ none := by
        have := (hl.held hino hns hpath).1
        rw [hns] at this
        simp [this]
      rw [shareInode, exec_get_bind, hino] at hopen
      dsimp only at hopen
      split_ifs at hopen
      · obtain ⟨hid, rfl⟩ := Prod.mk.inj hopen
        cases hid
        refine ⟨{ ino with openCount := ino.openCount + 1 }, ?_, hns, hpath, rfl, rfl, hslot,
          hsame hslot, ht.parent p (.inl hslot)⟩
        exact (get_update ..).trans (by rw [if_pos rfl, hino]; rfl)
      · cases (Prod.mk.inj hopen).1
    | none =>
      rw [hlink] at hopen
      obtain ⟨f, hf, hopen⟩ := exec_lift_bind_eq_ok.mp hopen
      cases f with
      | some f =>
        obtain ⟨size, -, hopen⟩ := exec_lift_bind_eq_ok.mp hopen
        obtain ⟨rfl, rfl⟩ := exec_linkInode_ok hopen
        have hslot : slot L ns p ≠ none := by simp [fileSlot_eq_some.mp hf]
        exact ⟨_, (get_insert ..).trans (if_pos rfl), rfl, rfl, rfl, rfl, hslot,
          hsame hslot, ht.parent p (.inl hslot)⟩
      | none =>
        obtain ⟨-, hopen⟩ := exec_ite_throw_eq_ok.mp hopen
        obtain ⟨hparent, hopen⟩ := exec_ite_throw_eq_ok.mp hopen
        rw [exec_lift_bind_of_ok rfl, exec_bind_of_ok (exec_storeOnHeap [])] at hopen
        obtain ⟨id', L₂, hlinked, hopen⟩ := exec_bind_eq_ok.mp hopen
        obtain ⟨rfl, rfl⟩ := exec_linkInode_ok hlinked
        obtain ⟨hid, rfl⟩ := Prod.mk.inj hopen
        cases hid
        have hput : ∀ q, slot (setSlot L ns p (.file ⟨env.contentAddress [], defaultFileMode⟩)) ns q ≠
            none ↔ slot L ns q ≠ none ∨ q = p := by
          intro q
          rw [slot_setSlot]
          by_cases hq : p = q
          · simp [hq]
          · simp [hq, Ne.symm hq]
        exact ⟨_, (get_insert ..).trans (if_pos rfl), rfl, rfl, rfl, rfl,
          (hput p).mpr (.inr rfl), hput, not_not.mp hparent⟩
  obtain ⟨hdirs', hfiles', hroom⟩ := openHandle_ok hino hns hpath hslot h
  exact ⟨⟨p, edited_put ht hnorm hfree hparent (fun q => (hfiles' q).trans (hfiles q))
    (hdirs'.trans hdirs)⟩, hnext ▸ hroom⟩

end Runs

/-! ## Runs -/

section

variable (L ns)

def copyDirs (src dst : Path) : List Path :=
  match normalizePath src, normalizePath dst with
  | .ok s, .ok d => if isFile L ns s then [] else copiedDirs L ns s d
  | _, _ => []

def Op.newDirs : Op D → List Path
  | .createDirectory path _ =>
    match normalizePath path with
    | .ok norm => [norm]
    | .error _ => []
  | .copyPath src dst _ => copyDirs L ns src dst
  | .movePath src dst => copyDirs L ns src dst
  | _ => []

/-- Whether an operation takes a path away again. -/
def Op.takesAway : Op D → Path → Bool
  | .movePath src _, p =>
    match normalizePath src with
    | .ok s => AtOrUnder '/' s p
    | .error _ => false
  | _, _ => false

/-- **No file is in the way**: none stays at a directory that is recorded, or above it. -/
def Op.Clear (op : Op D) : Prop :=
  ∀ t ∈ op.newDirs L ns, ∀ a ∈ t :: pathAncestors t, slot L ns a = none ∨ op.takesAway a = true

instance (op : Op D) : Decidable (op.Clear L ns) := by
  unfold Op.Clear
  infer_instance

end

/-- The operations on files and directories, and opening. -/
def Op.OnTree : Op D → Prop
  | .writeFile _ _ _ | .appendFile _ _ | .writeAt _ _ _ | .truncateFile _ _ | .symlink _ _
  | .removeFile _ | .createDirectory _ _ | .removeDirectory _ _ | .copyPath _ _ _
  | .movePath _ _ | .fileOpen _ _ => True
  | _ => False

section Steps

variable [ToString D] {env : Env hash} {op : Op D}

omit [ToString D] in
theorem edited_of_empty (he : Edited ns L L' ∅ W R Q) (hnew : op.newDirs L ns = []) :
    ∃ W R Q, Edited ns L L' {t | t ∈ op.newDirs L ns} W R Q ∧
      ∀ a ∈ upward '/' {t | t ∈ op.newDirs L ns}, a ∈ Q ∨ a ∈ R ↔ op.takesAway a = true := by
  have hempty : {t | t ∈ op.newDirs L ns} = ∅ := by simp [hnew]
  rw [hempty, upward_empty]
  exact ⟨W, R, Q, he, by simp⟩

/-- **What a successful operation does to the names.** -/
theorem edited_run (hl : Linked {ns} L) (ht : Tidy L ns) (hop : op.OnTree)
    (h : exec (op.run env ns) L = (.ok (), L')) :
    ∃ W R Q, Edited ns L L' {t | t ∈ op.newDirs L ns} W R Q ∧
      ∀ a ∈ upward '/' {t | t ∈ op.newDirs L ns}, a ∈ Q ∨ a ∈ R ↔ op.takesAway a = true := by
  cases op with
  | writeFile path bytes mode => exact edited_of_empty (edited_writeFile ht h).choose_spec rfl
  | appendFile path bytes => exact edited_of_empty (edited_appendFile ht h).choose_spec rfl
  | writeAt path offset data =>
    rw [Op.run, writeAt] at h
    exact edited_of_empty (edited_editFile ht h).choose_spec rfl
  | truncateFile path size =>
    rw [Op.run, truncateFile] at h
    exact edited_of_empty (edited_editFile ht h).choose_spec rfl
  | symlink target linkPath => exact edited_of_empty (edited_symlink ht h).choose_spec rfl
  | removeFile path => exact edited_of_empty (edited_removeFile h).choose_spec rfl
  | removeDirectory path recursive =>
    exact edited_of_empty (edited_removeDirectory ht h).choose_spec rfl
  | createDirectory path recursive =>
    obtain ⟨norm, hp, -⟩ := exec_lift_bind_eq_ok.mp h
    have hnew : {t | t ∈ (Op.createDirectory path recursive : Op D).newDirs L ns} = {norm} := by
      simp [Op.newDirs, hp]
    rw [hnew]
    exact ⟨∅, ∅, ∅, edited_createDirectory ht hp h, fun a _ => by simp [Op.takesAway]⟩
  | copyPath src dst recursive =>
    obtain ⟨s, hs, h'⟩ := exec_lift_bind_eq_ok.mp h
    obtain ⟨d, hd, -⟩ := exec_lift_bind_eq_ok.mp h'
    have hdn := normalized_of_normalizePath hd
    rcases copyPath_ok hs hd ht h with ⟨hfile, hw, bytes, mode, rfl⟩ | ⟨hfile, hdir, files, hfiles,
      hall, rfl⟩
    · exact edited_of_empty (edited_written ht hdn hw bytes mode) (by
        simp [Op.newDirs, copyDirs, hs, hd, hfile])
    · have hnew : (Op.copyPath src dst recursive : Op D).newDirs L ns = copiedDirs L ns s d := by
        simp [Op.newDirs, copyDirs, hs, hd, hfile]
      rw [hnew]
      exact ⟨_, ∅, ∅, edited_copy ht hdn hfiles hall, fun a _ => by simp [Op.takesAway]⟩
  | movePath src dst =>
    obtain ⟨s, hs, h'⟩ := exec_lift_bind_eq_ok.mp h
    obtain ⟨⟨⟩, -, h'⟩ := exec_lift_bind_eq_ok.mp h'
    obtain ⟨d, hd, -⟩ := exec_lift_bind_eq_ok.mp h'
    rcases edited_movePath ht hs hd h with ⟨hfile, he⟩ | ⟨hfile, W, he⟩
    · exact edited_of_empty he (by simp [Op.newDirs, copyDirs, hs, hd, hfile])
    · have hnew : (Op.movePath src dst : Op D).newDirs L ns = copiedDirs L ns s d := by
        simp [Op.newDirs, copyDirs, hs, hd, hfile]
      rw [hnew]
      refine ⟨W, _, _, he, fun a _ => ?_⟩
      simp only [Op.takesAway, hs, decide_eq_true_eq, Set.mem_ofPred_eq]
      exact or_iff_left_of_imp .inr
  | fileOpen path mode =>
    obtain ⟨id, L₁, hopen, h⟩ := exec_bind_eq_ok.mp h
    obtain rfl := (Prod.mk.inj h).2
    exact edited_of_empty (fileOpen_ok hl ht hopen).1.choose_spec rfl
  | _ => exact absurd hop not_false

/-- **When a successful operation keeps the namespace tidy**: no file was in the way. -/
theorem tidy_step_iff (hl : Linked {ns} L) (ht : Tidy L ns) (hop : op.OnTree)
    (h : exec (op.run env ns) L = (.ok (), L')) : Tidy L' ns ↔ op.Clear L ns := by
  obtain ⟨W, R, Q, he, haway⟩ := edited_run hl ht hop h
  rw [he.tidy_iff ht]
  constructor
  · intro hclear t htnew a ha
    by_cases hslot : slot L ns a = none
    · exact .inl hslot
    · have hup : a ∈ upward '/' {t | t ∈ op.newDirs L ns} := by
        refine ⟨t, htnew, ?_⟩
        rcases mem_cons.mp ha with rfl | ha
        · exact .inl rfl
        · exact .inr ((mem_pathAncestors_iff_under (he.recorded t htnew)).mp ha)
      exact .inr ((haway a hup).mp (hclear a hup hslot))
  · rintro hclear a ⟨t, htnew, hat⟩ hslot
    have hup : a ∈ upward '/' {t | t ∈ op.newDirs L ns} := ⟨t, htnew, hat⟩
    have hmem : a ∈ t :: pathAncestors t := by
      rcases hat with rfl | hat
      · exact mem_cons_self
      · exact mem_cons_of_mem _ ((mem_pathAncestors_iff_under (he.recorded t htnew)).mpr hat)
    exact (haway a hup).mpr ((hclear t htnew a hmem).resolve_left hslot)

theorem linked_step (hl : Linked {ns} L) (ht : Tidy L ns) (hop : op.OnTree)
    (h : exec (op.run env ns) L = (.ok (), L')) : Linked {ns} L' := by
  have hroom : ∀ path mode, op = .fileOpen path mode → L.nextHandle.toNat + 1 < 2 ^ 64 := by
    rintro path mode rfl
    obtain ⟨id, L₁, hopen, -⟩ := exec_bind_eq_ok.mp h
    exact (fileOpen_ok hl ht hopen).2
  have hback : ∀ path id, L.pathToInode.get (toLex (ns, path)) = some id →
      L.inodes.get id ≠ none := by
    intro path id hget
    obtain ⟨ino, hino, -⟩ := hl.back rfl hget
    simp [hino]
  have hnot : ¬ op.IsCheckout := by
    cases op with
    | checkoutCommit | checkoutBranch | restoreFile | restorePath => exact absurd hop not_false
    | _ => exact not_false
  have hsteps : Steps False env {ns} L (exec (op.run env ns) L).2 :=
    steps_run hnot False.elim rfl hroom hback
  rw [h] at hsteps
  exact preserved_of_steps (fun _ _ ha => ha.linked) (hsteps False.elim).1 hl

end Steps

/-- The namespace is tidy, and a commit does not fail on it. -/
structure Sane (L : Loom hash) (ns : WorkspaceId) : Prop where
  tidy : Tidy L ns
  preflight : namespacePreflight (L.workOf ns) (L.dirsOf ns) = []
  valid : validateVcsNamespacePreflight (L.workOf ns) (L.dirsOf ns) = .ok ()

theorem Tidy.sane (h : Tidy L ns) : Sane L ns :=
  ⟨h, h.preflight, Loom.validateVcsNamespacePreflight_eq_ok.mpr h.preflight⟩

variable [ToString D]

/-- All operations of a run succeed. -/
def Succeeds (env : Env hash) (ns : WorkspaceId) : Loom hash → List (Op D) → Prop
  | _, [] => True
  | L, op :: ops => (exec (op.run env ns) L).1 = .ok () ∧ Succeeds env ns (step env L (ns, op)) ops

/-- The namespace is as it should be at every point of a run. -/
def AlwaysSane (env : Env hash) (ns : WorkspaceId) : Loom hash → List (Op D) → Prop
  | L, [] => Sane L ns
  | L, op :: ops => Sane L ns ∧ AlwaysSane env ns (step env L (ns, op)) ops

/-- No file is ever in the way of a directory. -/
def AllClear (env : Env hash) (ns : WorkspaceId) : Loom hash → List (Op D) → Prop
  | _, [] => True
  | L, op :: ops => op.Clear L ns ∧ AllClear env ns (step env L (ns, op)) ops

variable {env : Env hash}

theorem AlwaysSane.sane {ops : List (Op D)} (h : AlwaysSane env ns L ops) : Sane L ns := by
  cases ops with
  | nil => exact h
  | cons op ops => exact h.1

theorem AlwaysSane.sane_foldl {ops : List (Op D)} (h : AlwaysSane env ns L ops) :
    Sane (ops.foldl (fun L op => step env L (ns, op)) L) ns := by
  induction ops generalizing L with
  | nil => exact h
  | cons op ops ih => exact ih h.2

/-- **Along a run of successful operations from a tidy namespace** it stays tidy and can be
committed exactly if no file was ever in the way of a recorded directory. -/
theorem sane_iff_clear {ops : List (Op D)} (hl : Linked {ns} L) (ht : Tidy L ns)
    (hops : ∀ op ∈ ops, op.OnTree) (hok : Succeeds env ns L ops) :
    AlwaysSane env ns L ops ↔ AllClear env ns L ops := by
  induction ops generalizing L with
  | nil => exact ⟨fun _ => trivial, fun _ => ht.sane⟩
  | cons op ops ih =>
    obtain ⟨hfirst, hrest⟩ := hok
    have hop := hops op mem_cons_self
    have hex : exec (op.run env ns) L = (.ok (), step env L (ns, op)) := Prod.ext hfirst rfl
    have hiff := tidy_step_iff hl ht hop hex
    have hnext := fun h => ih (linked_step hl ht hop hex) h
      (fun op hop => hops op (mem_cons_of_mem _ hop)) hrest
    constructor
    · rintro ⟨-, h⟩
      exact ⟨hiff.mp h.sane.tidy, (hnext h.sane.tidy).mp h⟩
    · rintro ⟨hclear, h⟩
      exact ⟨ht.sane, (hnext (hiff.mpr hclear)).mpr h⟩

end

/-! ## Samples -/

namespace Sample

open Vcs.Sample (ns)

theorem linked_empty : Linked {ns} empty := by
  have h := consistent_empty.linked
  exact ⟨h.fresh, fun hget _ hp => h.held hget (Set.mem_univ _) hp,
    fun _ hget => h.back (Set.mem_univ _) hget⟩

theorem tidy_empty : Tidy empty ns :=
  tidy_of_empty (by decide +kernel) (by decide +kernel)

def tidying : List (Op FreeDigest) :=
  [.createDirectory "a/b".toList true, .writeFile "a/b/c".toList [1] defaultFileMode,
    .copyPath "a".toList "d".toList true, .movePath "d/b".toList "a/e".toList]

theorem succeeds_tidying : Succeeds filesEnv ns empty tidying :=
  ⟨by decide +kernel, by decide +kernel, by decide +kernel, by decide +kernel, trivial⟩

theorem allClear_tidying : AllClear filesEnv ns empty tidying :=
  ⟨by decide +kernel, by decide +kernel, by decide +kernel, by decide +kernel, trivial⟩

theorem always_tidying : AlwaysSane filesEnv ns empty tidying :=
  (sane_iff_clear linked_empty tidy_empty (by simp [tidying, Op.OnTree]) succeeds_tidying).mpr
    allClear_tidying

def burying : List (Op FreeDigest) :=
  [.writeFile "a".toList [1] defaultFileMode, .createDirectory "a/b".toList true]

/-- **A directory below a file**: both operations succeed, and the file is then a directory too. -/
theorem file_above_directory : Linked {ns} empty ∧ Tidy empty ns ∧
    Succeeds filesEnv ns empty burying ∧ ¬ AlwaysSane filesEnv ns empty burying := by
  refine ⟨linked_empty, tidy_empty, ⟨by decide +kernel, by decide +kernel, trivial⟩, fun h => ?_⟩
  have hslot : slot (burying.foldl (fun L op => step filesEnv L (ns, op)) empty) ns "a".toList ≠
      none := by decide +kernel
  exact h.sane_foldl.tidy.disjoint _ hslot (by decide +kernel)

end Sample

end UldrenLoom.Fs
