import UldrenLoom.Fs.Namespace

/-!
# Moving a path

A move copies what is at the source and then removes all that is at or below the source, also where
the copy has just put it. What was done before a refusal is not undone.

* **`moveSpec_iff`**: a move does what it should exactly if `MoveFits`.
* **`Sample.move_onto_itself`**: a file that is moved onto itself is gone.
-/

namespace UldrenLoom.Fs

open ByteString Fallible Effect Subtree Names Vcs List

variable {D : Type} [LinearOrder D] [ToString D] {hash : Stored D → D}

/-! ## What a move should do -/

/-- The working tree is unchanged. -/
structure SameTree (ns : WorkspaceId) (L L' : Loom hash) : Prop where
  work : L'.workOf ns = L.workOf ns
  dirs : L'.dirsOf ns = L.dirsOf ns

/-- **What was at `s` is at `d`**; nothing else was removed, and `s` is gone unless it is `d`. -/
structure Moved (ns : WorkspaceId) (s d : Path) (L L' : Loom hash) : Prop where
  files : ∀ p e, AtOrUnder '/' s p → slot L ns p = some e → slot L' ns (relocate s d p) = some e
  bytes : ∀ p bytes, AtOrUnder '/' s p → readFileNorm ns L p = .ok bytes →
    readFileNorm ns L' (relocate s d p) = .ok bytes
  dirs : ∀ p ∈ L.dirsOf ns, AtOrUnder '/' s p → relocate s d p ∈ L'.dirsOf ns
  keptFiles : ∀ p, ¬ AtOrUnder '/' s p → slot L ns p ≠ none → slot L' ns p ≠ none
  keptDirs : ∀ p ∈ L.dirsOf ns, ¬ AtOrUnder '/' s p → p ∈ L'.dirsOf ns
  gone : d ≠ s → slot L' ns s = none ∧ s ∉ L'.dirsOf ns

section

variable (env : Env hash) (ns : WorkspaceId) (s d : Path) (L : Loom hash)

/-- A move does what it should, or it fails and changes nothing. -/
def MoveSpec : Prop :=
  match exec (movePath env ns s d) L with
  | (.ok (), L') => Moved ns s d L L'
  | (.error _, L') => SameTree ns L L'

/-! ## When it does -/

instance (path : Path) : Decidable (Writable env ns L path) := by
  unfold Writable
  infer_instance

/-- A file is not moved onto itself, and a source that may not be removed is at the target already. -/
def FileMoveFits : Prop :=
  ∀ bytes, readFile env ns L s = .ok bytes → Writable env ns L d →
    if writeGranted env ns s = .ok () then d ≠ s else slot L ns d = slot L ns s

/-- The directories that a move of a directory makes, with those above them. -/
abbrev madeDirs : Set Path := upward '/' {t | t ∈ copiedDirs L ns s d}

/-- Every file below the source can be read. -/
abbrev Readable : Prop := ∀ key ∈ childFiles ns L s, ∃ bytes, readFile env ns L key = .ok bytes

/-- A file below the source can be written at its target: this is granted, no directory is there or is
made there, and the store takes it. -/
def Receives (key : Path) : Prop :=
  writeGranted env ns (relocate s d key) = .ok () ∧ relocate s d key ∉ L.dirsOf ns ∧
    relocate s d key ∉ madeDirs ns s d L ∧ env.stores ns (relocate s d key) = .ok ()

/-- The directories that a move makes are there already. -/
def Recorded : Prop := ∀ q ∈ madeDirs ns s d L, q ∈ L.dirsOf ns

/-- The files that a move removes, in order: those below the source, and the copies that lie there. -/
def sourceKeys : List Path :=
  (SortedSet.ofList (childFiles ns L s ++
    ((childFiles ns L s).map (relocate s d)).filter fun p => Under '/' s p)).elems

/-- A move that is refused on the way makes nothing that was not there and removes nothing that was;
one that is not moves nothing to a place at or below the source. -/
structure DirMoveFits : Prop where
  write : ∀ pre key post, childFiles ns L s = pre ++ key :: post →
    (∀ k ∈ pre, Receives env ns s d L k) → ¬ Receives env ns s d L key →
    Recorded ns s d L ∧ ∀ k ∈ pre, slot L ns (relocate s d k) = slot L ns k
  removal : (∀ k ∈ childFiles ns L s, Receives env ns s d L k) →
    ∀ pre key post, sourceKeys ns s d L = pre ++ key :: post →
      (∀ k ∈ pre, writeGranted env ns k = .ok ()) → writeGranted env ns key ≠ .ok () →
      Recorded ns s d L ∧ (∀ k ∈ pre, slot L ns k = none) ∧
        ∀ k ∈ childFiles ns L s, relocate s d k ∉ pre → slot L ns (relocate s d k) = slot L ns k
  move : (∀ k ∈ childFiles ns L s, Receives env ns s d L k) →
    (∀ k ∈ sourceKeys ns s d L, writeGranted env ns k = .ok ()) →
    ∀ p, AtOrUnder '/' s p → slot L ns p ≠ none ∨ p ∈ L.dirsOf ns → ¬ AtOrUnder '/' s (relocate s d p)

/-- **When a move does what it should**: it is refused at once, or it fits. -/
def MoveFits : Prop :=
  guardReservedWrite s = .ok () → guardReservedWrite d = .ok () →
    if isFile L ns s then FileMoveFits env ns s d L
    else dirExists L ns s = true → Readable env ns s L → DirMoveFits env ns s d L

variable {env ns s d L} {L' : Loom hash}

/-! ## Contents -/

variable {bytes : Bytes}

theorem readFileNorm_eq_ok {path : Path} : readFileNorm ns L path = .ok bytes ↔
    ∃ f, slot L ns path = some (.file f) ∧ loadContent L.heap f.contentAddr = .ok bytes := by
  constructor
  · intro h
    obtain ⟨f, hf, h⟩ := of_bind h
    cases f with
    | none => cases h
    | some f => exact ⟨f, fileSlot_eq_some.mp hf, h⟩
  · rintro ⟨f, hf, h⟩
    rw [readFileNorm, fileSlot_eq_some.mpr hf, ok_bind]
    exact h

theorem content_of_load {h : Heap hash} (hi : h.Intact env.toEnv) {addr : D}
    (hload : loadContent h addr = .ok bytes) :
    Content h addr bytes ∧ env.contentAddress bytes = addr := by
  cases hget : h.content.get addr with
  | none =>
    rw [loadContent, hget] at hload
    cases hload
  | some obj =>
    obtain ⟨old, hc, haddr⟩ := hi addr obj hget
    obtain rfl := Except.ok.inj ((loadContent_content hc).symm.trans hload)
    exact ⟨hc, haddr⟩

theorem slot_of_readFile (hi : L.heap.Intact env.toEnv) {key : Path} (hk : Normalized key)
    (h : readFile env ns L key = .ok bytes) :
    slot L ns key = some (.file ⟨env.contentAddress bytes,
      (fileMode L ns key).getD defaultFileMode⟩) := by
  rw [readFile, show normalizePath key = .ok key from hk, ok_bind] at h
  obtain ⟨⟨⟩, -, h⟩ := of_bind h
  obtain ⟨f, hslot, hload⟩ := readFileNorm_eq_ok.mp h
  rw [(content_of_load hi hload).2, fileMode, hslot]
  rfl

theorem readFileNorm_of_extends (hi : L.heap.Intact env.toEnv) (hext : Extends env L.heap L'.heap)
    {p q : Path} (hslot : slot L' ns q = slot L ns p) (h : readFileNorm ns L p = .ok bytes) :
    readFileNorm ns L' q = .ok bytes := by
  obtain ⟨f, hf, hload⟩ := readFileNorm_eq_ok.mp h
  exact readFileNorm_eq_ok.mpr ⟨f, hslot.trans hf,
    loadContent_content (hext.content (content_of_load hi hload).1)⟩

theorem Extends.trans {h h' h'' : Heap hash} (h1 : Extends env h h') (h2 : Extends env h' h'') :
    Extends env h h'' := ⟨h2.intact, fun hc => h2.content (h1.content hc)⟩

theorem extends_foldl (hdig : Digests env) (hi : L.heap.Intact env.toEnv) {files : List CopiedFile}
    (hlen : ∀ f ∈ files, f.2.2.length < 2 ^ 64) :
    Extends env L.heap (files.foldl (writtenCopy env ns d) L).heap := by
  induction files generalizing L with
  | nil => exact ⟨hi, id⟩
  | cons f files ih =>
    have hfirst : Extends env L.heap (writtenCopy env ns d L f).heap :=
      (fills_stored hdig hi (hlen f mem_cons_self)).toExtends
    exact hfirst.trans (ih hfirst.intact fun g hg => hlen g (mem_cons_of_mem _ hg))

/-! ## Moving a file -/

omit [ToString D] in
theorem sameTree_refl : SameTree ns L L := ⟨rfl, rfl⟩

theorem moveSpec_of_refused (e : LoomError) (h : exec (movePath env ns s d) L = (.error e, L)) :
    MoveSpec env ns s d L := by
  rw [MoveSpec, h]
  exact sameTree_refl

theorem exec_movePath (hs : Normalized s) (hd : Normalized d) (hgs : guardReservedWrite s = .ok ())
    (hgd : guardReservedWrite d = .ok ()) : exec (movePath env ns s d) L =
      exec (copyPath env ns s d true >>= fun _ => removeSource env ns s) L := by
  rw [movePath, exec_lift_bind_of_ok hs, exec_lift_bind_of_ok hgs, exec_lift_bind_of_ok hd,
    exec_lift_bind_of_ok hgd]

omit [ToString D] in
theorem sameTree_written {path : Path} {mode : UInt32} :
    SameTree ns L (written env ns L path bytes mode) ↔
      slot L ns path = some (.file ⟨env.contentAddress bytes, mode⟩) := by
  constructor
  · intro h
    have hput : slot (written env ns L path bytes mode) ns path = _ :=
      slot_written path bytes mode path
    rwa [if_pos rfl, slot, h.work] at hput
  · intro h
    refine ⟨SortedMap.ext_get fun p => ?_, rfl⟩
    change slot (written env ns L path bytes mode) ns p = slot L ns p
    rw [slot_written]
    split_ifs with hp
    · rw [← hp, h]
    · rfl

variable (env ns s d L) in
/-- The state when a file was copied. -/
abbrev fileCopied (bytes : Bytes) : Loom hash :=
  written env ns L d bytes ((fileMode L ns s).getD defaultFileMode)

theorem moved_file_iff (hdig : Digests env) (hi : L.heap.Intact env.toEnv) (ht : Tidy L ns)
    (hs : Normalized s) (hfile : isFile L ns s = true) (hread : readFile env ns L s = .ok bytes) :
    Moved ns s d L (removeFileNorm (fileCopied env ns s d L bytes) ns s) ↔ d ≠ s := by
  have hslot := slot_of_readFile hi hs hread
  have hsome : slot L ns s ≠ none := by simp [hslot]
  -- nothing is below a file
  have honly : ∀ p, AtOrUnder '/' s p → slot L ns p ≠ none ∨ p ∈ L.dirsOf ns → p = s := by
    rintro p (rfl | hu) hp
    · rfl
    · exact absurd hu ((tidy_iff.mp ht).2.not_under hsome hp)
  have hafter : ∀ p, slot (removeFileNorm (fileCopied env ns s d L bytes) ns s) ns p =
        if s = p then none else if d = p then slot L ns s else slot L ns p := by
    intro p
    rw [slot_removeFileNorm, slot_written, hslot]
    simp only [true_and]
  have hext : Extends env L.heap (L.heap.stored env.toEnv bytes) :=
    (fills_stored hdig hi (readFile_length hi hread)).toExtends
  constructor
  · rintro h rfl
    have := h.files d _ (atOrUnder_refl d) hslot
    rw [relocate_self, hafter, if_pos rfl] at this
    cases this
  · intro hne
    have hmoved : slot (removeFileNorm (fileCopied env ns s d L bytes) ns s) ns d = slot L ns s := by
      rw [hafter, if_neg hne.symm, if_pos rfl]
    refine ⟨fun p e hp he => ?_, fun p bytes' hp hb => ?_, fun p hp hu => ?_, fun p hp he => ?_,
      fun p hp _ => hp, fun _ => ⟨?_, ?_⟩⟩
    · obtain rfl := honly p hp (.inl (by simp [he]))
      rw [relocate_self, hmoved, he]
    · obtain ⟨f, hf, -⟩ := readFileNorm_eq_ok.mp hb
      obtain rfl := honly p hp (.inl (by simp [hf]))
      rw [relocate_self]
      exact readFileNorm_of_extends hi hext hmoved hb
    · obtain rfl := honly p hu (.inr hp)
      exact absurd hp (ht.disjoint p hsome)
    · rw [hafter, if_neg fun h : s = p => hp (h ▸ atOrUnder_refl s)]
      split_ifs
      · exact hsome
      · exact he
    · rw [hafter, if_pos rfl]
    · exact ht.disjoint s hsome

/-- **When a file is moved as it should.** -/
theorem file_move_iff (hdig : Digests env) (hi : L.heap.Intact env.toEnv) (ht : Tidy L ns)
    (hs : Normalized s) (hd : Normalized d) (hgs : guardReservedWrite s = .ok ())
    (hgd : guardReservedWrite d = .ok ()) (hfile : isFile L ns s = true) :
    MoveSpec env ns s d L ↔ FileMoveFits env ns s d L := by
  have hcopy : exec (movePath env ns s d) L = exec (liftM (readFile env ns L s) >>= fun bytes =>
      writeFile env ns d bytes ((fileMode L ns s).getD defaultFileMode) >>= fun _ =>
        removeSource env ns s) L := by
    rw [exec_movePath hs hd hgs hgd, copyPath]
    simp only [bind_assoc]
    rw [exec_lift_bind_of_ok hs, exec_lift_bind_of_ok hd, exec_get_bind, if_pos hfile, bind_assoc]
  unfold MoveSpec FileMoveFits
  rw [hcopy]
  cases hread : readFile env ns L s with
  | error e =>
    exact ⟨fun _ bytes hb => absurd hb (by simp), fun _ => sameTree_refl⟩
  | ok bytes =>
    rw [exec_lift_bind_of_ok rfl]
    have hslot := slot_of_readFile hi hs hread
    by_cases hw : Writable env ns L d
    · rw [exec_bind_of_ok (exec_writeFile_of_writable hd hw _ _), removeSource, exec_get_bind]
      have hstill : isFile (fileCopied env ns s d L bytes) ns s = true := by
        unfold isFile
        rw [slot_written, hslot]
        split_ifs <;> rfl
      rw [if_pos hstill]
      by_cases hg : writeGranted env ns s = .ok ()
      · rw [exec_removeFile_of_granted hs hg]
        refine (moved_file_iff hdig hi ht hs hfile hread).trans ⟨fun h _ _ _ => ?_, fun h => ?_⟩
        · rwa [if_pos hg]
        · have := h bytes rfl hw
          rwa [if_pos hg] at this
      · obtain ⟨e, he⟩ := exec_removeFile_of_denied hs hg
        rw [he]
        refine sameTree_written.trans ⟨fun h _ _ _ => ?_, fun h => ?_⟩
        · rwa [if_neg hg, hslot]
        · have := h bytes rfl hw
          rwa [if_neg hg, hslot] at this
    · obtain ⟨e, he⟩ := exec_writeFile_of_not_writable hd hw bytes
        ((fileMode L ns s).getD defaultFileMode)
      rw [exec_bind_of_error he]
      exact ⟨fun _ _ _ hw' => absurd hw' hw, fun _ => sameTree_refl⟩

/-! ## Moving a directory -/

omit [ToString D] in
/-- **A list splits at its first element that fails in one way.** -/
theorem split_unique {α : Type} {P : α → Prop} {pre pre' post post' : List α} {a a' : α}
    (h : pre ++ a :: post = pre' ++ a' :: post') (hpre : ∀ b ∈ pre, P b) (ha : ¬ P a)
    (hpre' : ∀ b ∈ pre', P b) (ha' : ¬ P a') : pre = pre' := by
  rcases append_eq_append_iff.mp h with ⟨z, rfl, hz⟩ | ⟨z, rfl, hz⟩
  · cases z with
    | nil => exact (append_nil pre).symm
    | cons b z =>
      obtain ⟨rfl, -⟩ := List.cons.inj hz
      exact absurd (hpre' a (mem_append_right _ mem_cons_self)) ha
  · cases z with
    | nil => exact append_nil pre'
    | cons b z =>
      obtain ⟨rfl, -⟩ := List.cons.inj hz
      exact absurd (hpre a' (mem_append_right _ mem_cons_self)) ha'

variable (env ns s d L) in
/-- The state when files below a directory were copied. -/
def copiedState (keys : List Path) : Loom hash :=
  (keys.map (copyOf env ns L s)).foldl (writtenCopy env ns d) (recordDirs ns L s d (subDirs ns L s))

variable (env ns s d L) in
/-- The state when all files below a directory were copied. -/
abbrev copied : Loom hash := copiedState env ns s d L (childFiles ns L s)

variable {keys : List Path}

theorem dirsOf_copiedState (ht : Tidy L ns) (hd : Normalized d) (q : Path) :
    q ∈ (copiedState env ns s d L keys).dirsOf ns ↔ q ∈ L.dirsOf ns ∨ q ∈ madeDirs ns s d L := by
  rw [copiedState, dirsOf_foldl_writtenCopy, mem_recordDirs_iff ht hd]

theorem slot_copiedState_of_forall_ne (hsub : ∀ k ∈ keys, Under '/' s k) {p : Path}
    (hp : ∀ k ∈ keys, relocate s d k ≠ p) : slot (copiedState env ns s d L keys) ns p = slot L ns p := by
  refine (slot_foldl_of_forall_ne fun f hf => ?_).trans
    (recordDirs_frame (fun L => slot L ns p) (fun _ _ => rfl) L s d _)
  obtain ⟨key, hkey, rfl⟩ := mem_map.mp hf
  rw [copyOf_path (hsub key hkey)]
  exact hp key hkey

section Copies

variable (hi : L.heap.Intact env.toEnv) (ht : Tidy L ns) (hd : Normalized d)
  (hread : Readable env ns s L)

include hread in
theorem snapshotFiles_of_readable :
    snapshotFiles env ns L s = .ok ((childFiles ns L s).map (copyOf env ns L s)) := by
  have hcopy : ∀ key ∈ childFiles ns L s, (do
      let bytes ← readFile env ns L key
      .ok (key.drop (s ++ ['/']).length, (fileMode L ns key).getD defaultFileMode, bytes) :
        Result CopiedFile) = .ok (copyOf env ns L s key) := by
    intro key hkey
    obtain ⟨bytes, hb⟩ := hread key hkey
    rw [copyOf, hb]
    rfl
  exact mapM_eq_ok.mpr (forall₂_map_right_iff.mpr (forall₂_same.mpr hcopy))

include hi ht hread in
/-- **Every file that is copied is at its target.** -/
theorem slot_copiedState_of_mem (hsub : keys.Sublist (childFiles ns L s)) {key : Path} (hkey : key ∈ keys) :
    slot (copiedState env ns s d L keys) ns (relocate s d key) = slot L ns key := by
  obtain ⟨hslot, hunder⟩ := mem_childFiles.mp (hsub.subset hkey)
  obtain ⟨bytes, hb⟩ := hread key (hsub.subset hkey)
  have hpath : d ++ '/' :: (copyOf env ns L s key).1 = relocate s d key := copyOf_path hunder
  have hnodup : ((keys.map (copyOf env ns L s)).map Prod.fst).Nodup :=
    (nodup_snapshotFiles (snapshotFiles_of_readable hread)).sublist ((hsub.map _).map _)
  rw [slot_of_readFile hi (ht.normalized key (.inl hslot)) hb, ← hpath]
  refine (slot_foldl_of_mem hnodup (mem_map_of_mem hkey)).trans ?_
  rw [copyOf, hb]
  rfl

include ht in
omit [ToString D] in
/-- **What is above the target of a file is made or there.** -/
theorem above_target {key a : Path} (hkey : key ∈ childFiles ns L s)
    (ha : Under '/' a (relocate s d key)) : a ∈ madeDirs ns s d L := by
  obtain ⟨hslot, hunder⟩ := mem_childFiles.mp hkey
  obtain ⟨x, rfl⟩ := under_iff.mp hunder
  rw [relocate_append] at ha
  rcases under_or_under (.inr ha) (.inr (under_iff.mpr ⟨x, rfl⟩)) with had | had
  · exact ⟨d, mem_cons_self, had⟩
  · -- strictly below the target directory: it is the target of a directory below the source
    obtain ⟨y, rfl⟩ := under_iff.mp had
    obtain ⟨z, hz⟩ := under_iff.mp ha
    have hx : x = y ++ '/' :: z := by simpa using hz
    have hdir : s ++ '/' :: y ∈ L.dirsOf ns :=
      (tidy_iff.mp ht).2.closed _ (.inl hslot) _ (under_iff.mpr ⟨z, by simp [hx]⟩)
    refine ⟨_, mem_cons_of_mem _ (mem_map_of_mem (mem_subDirs.mpr ⟨hdir, .inr (under_iff.mpr ⟨y, rfl⟩)⟩)), ?_⟩
    rw [relocate_append]
    exact atOrUnder_refl _

variable (env) in
include ht hd in
theorem writable_iff_receives {key : Path} (hkey : key ∈ childFiles ns L s) :
    Writable env ns (recordDirs ns L s d (subDirs ns L s)) (d ++ '/' :: (copyOf env ns L s key).1) ↔
      Receives env ns s d L key := by
  obtain ⟨hslot, hunder⟩ := mem_childFiles.mp hkey
  have hnorm : Normalized (relocate s d key) := hd.relocate (ht.normalized key (.inl hslot)) (.inr hunder)
  have hmem := mem_recordDirs_iff (s := s) ht hd
  have hclosed : ∀ b ∈ (recordDirs ns L s d (subDirs ns L s)).dirsOf ns, ∀ a, Under '/' a b →
      a ∈ (recordDirs ns L s d (subDirs ns L s)).dirsOf ns := by
    intro b hb a ha
    rcases (hmem b).mp hb with hb | ⟨t, hT, hb⟩
    · exact (hmem a).mpr (.inl ((tidy_iff.mp ht).2.closed b (.inr hb) a ha))
    · exact (hmem a).mpr (.inr ⟨t, hT, .inr (ha.trans_at hb)⟩)
  rw [copyOf_path hunder, Writable, Receives, ← Bool.not_eq_true, dirExists_iff hnorm, hmem, not_or,
    parentExists_iff hnorm hclosed]
  exact ⟨fun h => ⟨h.1, h.2.1.1, h.2.1.2, h.2.2.2⟩, fun h => ⟨h.1, ⟨h.2.1, h.2.2.1⟩, fun a ha =>
    (hmem a).mpr (.inr (above_target ht hkey ha)), h.2.2.2⟩⟩

omit [ToString D] in
theorem sameTree_iff (hdirs : ∀ q, q ∈ L'.dirsOf ns ↔ q ∈ L.dirsOf ns ∨ q ∈ madeDirs ns s d L) :
    SameTree ns L L' ↔ Recorded ns s d L ∧ ∀ p, slot L' ns p = slot L ns p := by
  constructor
  · intro h
    refine ⟨fun q hq => ?_, fun p => ?_⟩
    · rw [← h.dirs]
      exact (hdirs q).mpr (.inr hq)
    · rw [slot, h.work]
      rfl
  · rintro ⟨hrec, hslots⟩
    refine ⟨SortedMap.ext_get hslots, SortedSet.ext_mem fun q => ?_⟩
    rw [hdirs]
    exact or_iff_left_of_imp (hrec q)

include hi ht hd hread in
/-- **When the copies made before a refusal change nothing.** -/
theorem sameTree_copied (hsub : keys.Sublist (childFiles ns L s)) :
    SameTree ns L (copiedState env ns s d L keys) ↔
      Recorded ns s d L ∧ ∀ k ∈ keys, slot L ns (relocate s d k) = slot L ns k := by
  rw [sameTree_iff (dirsOf_copiedState ht hd)]
  refine and_congr_right fun _ => ⟨fun h k hk => ?_, fun h p => ?_⟩
  · rw [← h, slot_copiedState_of_mem hi ht hread hsub hk]
  · by_cases hp : ∃ k ∈ keys, relocate s d k = p
    · obtain ⟨k, hk, rfl⟩ := hp
      rw [slot_copiedState_of_mem hi ht hread hsub hk, h k hk]
    · refine slot_copiedState_of_forall_ne (fun k hk => (mem_childFiles.mp (hsub.subset hk)).2) ?_
      exact fun k hk heq => hp ⟨k, hk, heq⟩

include hi ht hd hread in
/-- **When the copies and the removals before a refusal change nothing.** -/
theorem sameTree_removed (pre : List Path) :
    SameTree ns L (removedFiles ns (copied env ns s d L) pre) ↔
      Recorded ns s d L ∧ (∀ k ∈ pre, slot L ns k = none) ∧
        ∀ k ∈ childFiles ns L s, relocate s d k ∉ pre →
          slot L ns (relocate s d k) = slot L ns k := by
  have hcopied : ∀ {key}, key ∈ childFiles ns L s →
      slot (copied env ns s d L) ns (relocate s d key) = slot L ns key :=
    fun hkey => slot_copiedState_of_mem hi ht hread (Sublist.refl _) hkey
  have hdirs : ∀ q, q ∈ (removedFiles ns (copied env ns s d L) pre).dirsOf ns ↔
      q ∈ L.dirsOf ns ∨ q ∈ madeDirs ns s d L := by
    intro q
    rw [dirsOf_removedFiles, dirsOf_copiedState ht hd]
  rw [sameTree_iff hdirs]
  simp only [slot_removedFiles]
  refine and_congr_right fun _ => ⟨fun h => ⟨fun k hk => ?_, fun k hk hno => ?_⟩, fun ⟨hnone, hsame⟩ p => ?_⟩
  · rw [← h, if_pos hk]
  · rw [← h, if_neg hno, hcopied hk]
  · split_ifs with hp
    · exact (hnone p hp).symm
    · by_cases hk : ∃ k ∈ childFiles ns L s, relocate s d k = p
      · obtain ⟨k, hk, rfl⟩ := hk
        rw [hcopied hk, hsame k hk hp]
      · exact slot_copiedState_of_forall_ne (fun k hk => (mem_childFiles.mp hk).2)
          fun k hk' heq => hk ⟨k, hk', heq⟩

include hi ht hread in
theorem childFiles_copiedState :
    childFiles ns (copied env ns s d L) s = sourceKeys ns s d L := by
  have hmem : ∀ p, p ∈ childFiles ns (copied env ns s d L) s ↔ p ∈ sourceKeys ns s d L := by
    intro p
    rw [mem_childFiles, sourceKeys, SortedSet.mem_elems, SortedSet.mem_ofList, mem_append, mem_filter,
      mem_map, mem_childFiles, decide_eq_true_iff]
    by_cases hk : ∃ k ∈ childFiles ns L s, relocate s d k = p
    · obtain ⟨k, hkey, rfl⟩ := hk
      rw [slot_copiedState_of_mem hi ht hread (Sublist.refl _) hkey]
      exact ⟨fun h => .inr ⟨⟨k, hkey, rfl⟩, h.2⟩, fun h => ⟨(mem_childFiles.mp hkey).1,
        h.elim And.right And.right⟩⟩
    · rw [slot_copiedState_of_forall_ne (fun k hk => (mem_childFiles.mp hk).2)
        fun k hk' heq => hk ⟨k, hk', heq⟩]
      exact ⟨.inl, fun h => h.resolve_right fun h => hk h.1⟩
  have hsorted : (childFiles ns (copied env ns s d L) s).Pairwise (· < ·) :=
    (pairwise_map.mpr (SortedMap.ascending _)).filter _
  have hsorted' : (sourceKeys ns s d L).Pairwise (· < ·) := pairwise_map.mpr (SortedMap.ascending _)
  exact ((perm_ext_iff_of_nodup (hsorted.imp ne_of_lt) (hsorted'.imp ne_of_lt)).mpr hmem).eq_of_pairwise
    (fun a b _ _ hab hba => absurd hab (lt_asymm hba)) hsorted hsorted'

end Copies

variable (ns s) in
/-- The state when all below a directory was removed. -/
def dropped (L : Loom hash) : Loom hash := dropDirs (removedFiles ns L (childFiles ns L s)) ns s

omit [ToString D] in
theorem slot_dropped (L : Loom hash) (p : Path) :
    slot (dropped ns s L) ns p = if Under '/' s p then none else slot L ns p := by
  change slot (removedFiles ns L (childFiles ns L s)) ns p = _
  rw [slot_removedFiles]
  simp only [mem_childFiles]
  by_cases hp : slot L ns p = none <;> simp [hp]

theorem moved_dir_iff (hdig : Digests env) (hi : L.heap.Intact env.toEnv) (ht : Tidy L ns)
    (hd : Normalized d) (hdir : s ∈ L.dirsOf ns)
    (hread : Readable env ns s L) (he : Edited ns L (copied env ns s d L) T W ∅ ∅) :
    Moved ns s d L (dropped ns s (copied env ns s d L)) ↔
      ∀ p, AtOrUnder '/' s p → slot L ns p ≠ none ∨ p ∈ L.dirsOf ns →
        ¬ AtOrUnder '/' s (relocate s d p) := by
  have hsource : slot (copied env ns s d L) ns s = none := he.slot_of_dir ht hdir
  have hdirs : ∀ p, p ∈ (dropped ns s (copied env ns s d L)).dirsOf ns ↔
        (p ∈ L.dirsOf ns ∨ p ∈ madeDirs ns s d L) ∧ ¬ AtOrUnder '/' s p := by
    intro p
    rw [dropped, mem_dropDirs, dirsOf_removedFiles, dirsOf_copiedState ht hd]
  constructor
  · intro h p hp hexists hback
    rcases hexists with hslot | hpd
    · obtain ⟨e, hslot⟩ := Option.ne_none_iff_exists'.mp hslot
      have hmoved := h.files p e hp hslot
      rw [slot_dropped] at hmoved
      rcases hback with hback | hback
      · rw [hback, if_neg not_under_self, hsource] at hmoved
        cases hmoved
      · rw [if_pos hback] at hmoved
        cases hmoved
    · exact ((hdirs _).mp (h.dirs p hpd hp)).2 hback
  · intro hout
    have hafter : ∀ p, AtOrUnder '/' s p → slot L ns p ≠ none →
        slot (dropped ns s (copied env ns s d L)) ns (relocate s d p) = slot L ns p := by
      intro p hp hslot
      have hunder : Under '/' s p := hp.resolve_left fun h => ht.disjoint p hslot (h ▸ hdir)
      rw [slot_dropped, if_neg fun hu => hout p hp (.inl hslot) (.inr hu)]
      exact slot_copiedState_of_mem hi ht hread (Sublist.refl _) (mem_childFiles.mpr ⟨hslot, hunder⟩)
    have hext : Extends env L.heap (dropped ns s (copied env ns s d L)).heap := by
      have hheap : (recordDirs ns L s d (subDirs ns L s)).heap = L.heap :=
        recordDirs_frame Loom.heap (fun _ _ => rfl) L s d _
      have hlen : ∀ f ∈ (childFiles ns L s).map (copyOf env ns L s), f.2.2.length < 2 ^ 64 := by
        intro f hf
        obtain ⟨key, hkey, rfl⟩ := mem_map.mp hf
        obtain ⟨bytes, hb⟩ := hread key hkey
        rw [copyOf, hb]
        exact readFile_length hi hb
      change Extends env L.heap (removedFiles ns (copied env ns s d L) _).heap
      rw [removedFiles_frame Loom.heap (fun _ _ => rfl), ← hheap]
      exact extends_foldl hdig (hheap ▸ hi) hlen
    refine ⟨fun p e hp hslot => ?_, fun p bytes hp hb => ?_, fun p hp hu => ?_, fun p hp hslot => ?_,
      fun p hp hu => (hdirs p).mpr ⟨.inl hp, hu⟩, fun _ => ⟨?_, fun h => ?_⟩⟩
    · rw [hafter p hp (by simp [hslot]), hslot]
    · obtain ⟨f, hf, -⟩ := readFileNorm_eq_ok.mp hb
      exact readFileNorm_of_extends hi hext (hafter p hp (by simp [hf])) hb
    · refine (hdirs _).mpr ⟨.inr ⟨relocate s d p, ?_, atOrUnder_refl _⟩, hout p hu (.inr hp)⟩
      exact mem_cons_of_mem _ (mem_map_of_mem (mem_subDirs.mpr ⟨hp, hu⟩))
    · rw [slot_dropped, if_neg fun hu => hp (.inr hu), he.files]
      exact ⟨.inl hslot, Set.notMem_empty p⟩
    · rw [slot_dropped, if_neg not_under_self, hsource]
    · exact ((hdirs s).mp h).2 (atOrUnder_refl s)

/-- **When a directory is moved as it should.** -/
theorem dir_move_iff (hdig : Digests env) (hi : L.heap.Intact env.toEnv) (ht : Tidy L ns)
    (hs : Normalized s) (hd : Normalized d) (hgs : guardReservedWrite s = .ok ())
    (hgd : guardReservedWrite d = .ok ()) (hfile : isFile L ns s = false)
    (hdir : s ∈ L.dirsOf ns) :
    MoveSpec env ns s d L ↔ (Readable env ns s L → DirMoveFits env ns s d L) := by
  have hcopy : exec (movePath env ns s d) L = exec (liftM (snapshotFiles env ns L s) >>= fun files =>
      modify (fun L => recordDirs ns L s d (subDirs ns L s)) >>= fun _ =>
        writeFiles env ns d files >>= fun _ => removeSource env ns s) L := by
    rw [exec_movePath hs hd hgs hgd, copyPath]
    simp only [bind_assoc]
    rw [exec_lift_bind_of_ok hs, exec_lift_bind_of_ok hd, exec_get_bind, if_neg (by simp [hfile]),
      if_neg (not_not.mpr ((dirExists_iff hs).mpr hdir)), if_neg (by simp)]
    simp only [bind_assoc]
  unfold MoveSpec
  rw [hcopy]
  by_cases hread : Readable env ns s L
  swap
  · cases hfiles : snapshotFiles env ns L s with
    | ok files => exact absurd (snapshotFiles_eq_ok hfiles).2 hread
    | error e =>
      rw [exec_lift_bind_of_error rfl]
      exact ⟨fun _ h => absurd h hread, fun _ => sameTree_refl⟩
  rw [forall_prop_of_true hread]
  have hfiles := snapshotFiles_of_readable hread
  have hkeys := fun key (hkey : key ∈ childFiles ns L s) => writable_iff_receives env ht hd hkey
  rw [exec_lift_bind_of_ok hfiles, exec_modify_bind]
  rcases writeFiles_ends (fun f hf => normalized_copy ht hd hfiles hf)
    (recordDirs ns L s d (subDirs ns L s)) with ⟨hall, hrun⟩ | ⟨pre, f, post, e, hsplit, hpre, hf, hrun⟩
  swap
  · -- a write is refused
    obtain ⟨kpre, rest, hchild, rfl, hrest⟩ := map_eq_append_iff.mp hsplit
    obtain ⟨key, kpost, rfl, rfl, rfl⟩ := map_eq_cons_iff.mp hrest
    have hmem : ∀ k ∈ kpre, k ∈ childFiles ns L s := fun k hk => hchild ▸ mem_append_left _ hk
    have hkey : key ∈ childFiles ns L s := hchild ▸ mem_append_right _ mem_cons_self
    have hpre' : ∀ k ∈ kpre, Receives env ns s d L k :=
      fun k hk => (hkeys k (hmem k hk)).mp (hpre _ (mem_map_of_mem hk))
    have hf' := mt (hkeys key hkey).mpr hf
    rw [exec_bind_of_error hrun]
    refine (sameTree_copied hi ht hd hread (hchild ▸ sublist_append_left kpre _)).trans
      ⟨fun h => ⟨fun pre key' post hc hp hn => ?_, fun h' => absurd (h' key hkey) hf',
        fun h' => absurd (h' key hkey) hf'⟩, fun h => h.write kpre key kpost hchild hpre' hf'⟩
    obtain rfl := split_unique (hchild.symm.trans hc) hpre' hf' hp hn
    exact h
  have hall' : ∀ k ∈ childFiles ns L s, Receives env ns s d L k :=
    fun k hk => (hkeys k hk).mp (hall _ (mem_map_of_mem hk))
  have hwrites : ∀ pre key post, childFiles ns L s = pre ++ key :: post →
      (∀ k ∈ pre, Receives env ns s d L k) → ¬ Receives env ns s d L key →
      Recorded ns s d L ∧ ∀ k ∈ pre, slot L ns (relocate s d k) = slot L ns k :=
    fun pre key post hc _ hn => absurd (hall' key (hc ▸ mem_append_right _ mem_cons_self)) hn
  have he : Edited ns L (copied env ns s d L) _ _ ∅ ∅ := edited_copy ht hd hfiles hall
  have hnot : ¬ isFile (copied env ns s d L) ns s = true := by
    unfold isFile
    rw [he.slot_of_dir ht hdir]
    simp
  have hwritten : exec (writeFiles env ns d ((childFiles ns L s).map (copyOf env ns L s)))
      (recordDirs ns L s d (subDirs ns L s)) = (.ok (), copied env ns s d L) := hrun
  rw [exec_bind_of_ok hwritten, removeSource, exec_get_bind, if_neg hnot]
  have hsource := childFiles_copiedState (d := d) hi ht hread
  have hnorm : ∀ key ∈ childFiles ns (copied env ns s d L) s, Normalized key :=
    fun key hkey => he.normalized ht (mem_childFiles.mp hkey).1
  rcases removeFiles_ends hnorm (copied env ns s d L) with
    ⟨hgranted, hrun⟩ | ⟨pre, key, post, e, hsplit, hpre, hkey, hrun⟩
  · rw [exec_bind_of_ok hrun]
    rw [hsource] at hgranted
    refine (moved_dir_iff hdig hi ht hd hdir hread he).trans
      ⟨fun h => ⟨hwrites, fun _ pre key post hc _ hn => ?_, fun _ _ => h⟩, fun h => h.move hall' hgranted⟩
    exact absurd (hgranted key (hc ▸ mem_append_right _ mem_cons_self)) hn
  · -- a removal is refused
    rw [exec_bind_of_error hrun]
    rw [hsource] at hsplit
    refine (sameTree_removed hi ht hd hread pre).trans ⟨fun h => ⟨hwrites, fun _ pre' key' post' hc hp hn => ?_,
      fun _ hg => absurd (hg key (hsplit ▸ mem_append_right _ mem_cons_self)) hkey⟩,
      fun h => h.removal hall' pre key post hsplit hpre hkey⟩
    obtain rfl := split_unique (hsplit.symm.trans hc) hpre hkey hp hn
    exact h

/-! ## Moving -/

/-- **When a move does what it should**, with normalised paths and a tidy namespace. -/
theorem moveSpec_iff (hdig : Digests env) (hi : L.heap.Intact env.toEnv) (ht : Tidy L ns)
    (hs : Normalized s) (hd : Normalized d) : MoveSpec env ns s d L ↔ MoveFits env ns s d L := by
  unfold MoveFits
  cases hgs : guardReservedWrite s with
  | error e =>
    refine ⟨fun _ h => absurd h nofun, fun _ => moveSpec_of_refused e ?_⟩
    rw [movePath, exec_lift_bind_of_ok hs, exec_lift_bind_of_error hgs]
  | ok u =>
    cases hgd : guardReservedWrite d with
    | error e =>
      refine ⟨fun _ _ h => absurd h nofun, fun _ => moveSpec_of_refused e ?_⟩
      rw [movePath, exec_lift_bind_of_ok hs, exec_lift_bind_of_ok hgs, exec_lift_bind_of_ok hd,
        exec_lift_bind_of_error hgd]
    | ok u' =>
      simp only [forall_const]
      by_cases hfile : isFile L ns s = true
      · rw [if_pos hfile]
        exact file_move_iff hdig hi ht hs hd hgs hgd hfile
      · rw [if_neg hfile]
        by_cases hdir : dirExists L ns s = true
        · simp only [hdir, forall_const]
          exact dir_move_iff hdig hi ht hs hd hgs hgd (Bool.eq_false_iff.mpr hfile)
            ((dirExists_iff hs).mp hdir)
        · refine ⟨fun _ h => absurd h hdir, fun _ => moveSpec_of_refused (.notFound s.quote) ?_⟩
          rw [exec_movePath hs hd hgs hgd, copyPath]
          simp only [bind_assoc]
          rw [exec_lift_bind_of_ok hs, exec_lift_bind_of_ok hd, exec_get_bind, if_neg hfile,
            if_pos hdir]
          rfl

end

/-! ## Samples -/

namespace Sample

open Vcs.Sample (ns)

def writeOne : Op FreeDigest := .writeFile "a".toList [1] defaultFileMode

def oneFile : Loom freeHash := (exec (writeOne.run filesEnv ns) empty).2

theorem intact_oneFile : oneFile.heap.Intact filesEnv.toEnv := by
  have hstep : Consistent filesEnv (exec (writeOne.run filesEnv ns) empty).2 :=
    consistent_empty.step_steps ns digests_filesEnv not_false (Nat.one_lt_two_pow (by decide)) nofun
  rw [oneFile]
  exact hstep.intact.heap

theorem tidy_oneFile : Tidy oneFile ns := by
  have hok : (exec (writeOne.run filesEnv ns) empty).1 = .ok () := by decide +kernel
  have hex : exec (writeOne.run filesEnv ns) empty = (.ok (), oneFile) := by rw [oneFile, ← hok]
  have hclear : writeOne.Clear empty ns := nofun
  have hop : writeOne.OnTree := trivial
  exact (tidy_step_iff linked_empty tidy_empty hop hex).mpr hclear

theorem moveSpec_rename : ∃ L : Loom freeHash, L.heap.Intact filesEnv.toEnv ∧ Tidy L ns ∧
    isFile L ns "a".toList = true ∧ MoveSpec filesEnv ns "a".toList "b".toList L := by
  obtain ⟨L, hi, ht, hfile⟩ : ∃ L : Loom freeHash, L.heap.Intact filesEnv.toEnv ∧ Tidy L ns ∧
      isFile L ns "a".toList = true := ⟨oneFile, intact_oneFile, tidy_oneFile, by decide +kernel⟩
  have hfits : MoveFits filesEnv ns "a".toList "b".toList L := by
    intro _ _
    rw [if_pos hfile]
    intro _ _ _
    rw [if_pos (by decide +kernel)]
    decide
  exact ⟨L, hi, ht, hfile, (moveSpec_iff digests_filesEnv hi ht (by decide +kernel)
    (by decide +kernel)).mpr hfits⟩

/-- **A file that is moved onto itself is gone**, though the move succeeds. -/
theorem move_onto_itself : ∃ L : Loom freeHash, L.heap.Intact filesEnv.toEnv ∧ Tidy L ns ∧
    (exec (movePath filesEnv ns "a".toList "a".toList) L).1 = .ok () ∧
    ¬ MoveSpec filesEnv ns "a".toList "a".toList L := by
  obtain ⟨L, hi, ht, hok, hfile, hread, hw⟩ : ∃ L : Loom freeHash,
      L.heap.Intact filesEnv.toEnv ∧ Tidy L ns ∧
      (exec (movePath filesEnv ns "a".toList "a".toList) L).1 = .ok () ∧
      isFile L ns "a".toList = true ∧ readFile filesEnv ns L "a".toList = .ok [1] ∧
      Writable filesEnv ns L "a".toList :=
    ⟨oneFile, intact_oneFile, tidy_oneFile, by decide +kernel, by decide +kernel, by decide +kernel,
      by decide +kernel⟩
  refine ⟨L, hi, ht, hok, fun h => ?_⟩
  have hfits := (file_move_iff digests_filesEnv hi ht (by decide +kernel) (by decide +kernel)
    (by decide +kernel) (by decide +kernel) hfile).mp h [1] hread hw
  rw [if_pos (by decide +kernel)] at hfits
  exact hfits rfl

end Sample

end UldrenLoom.Fs
