import UldrenLoom.Fs.Acts

/-!
# What operations do to the tree

The paths and directories after the changes that file operations are made of, and the outcome of
writing, removing and copying.
-/

open ByteString Fallible Effect Subtree List

/-! ## Normalised paths -/

namespace UldrenLoom.Vcs

variable {p d : Path}

theorem normalized_iff :
    Normalized p ↔ p ≠ [] ∧ p.head? ≠ some '/' ∧ p.getLast? ≠ some '/' ∧ ¬ ['/', '/'] <:+: p := by
  constructor
  · intro h
    refine ⟨h.spec.1, h.spec.2.2, h.spec.2.1, fun hbad => ?_⟩
    unfold Normalized normalizePath at h
    simp only at h
    split_ifs at h with hn
    rw [Except.ok.inj h] at hn
    exact hn (.inr (.inr hbad))
  · rintro ⟨hne, hhead, hlast, hinfix⟩
    have hdrop : p.dropWhile (· = '/') = p := by
      cases p with
      | nil => rfl
      | cons c p =>
        refine dropWhile_cons_of_neg ?_
        simpa using hhead
    unfold Normalized normalizePath
    simp only [hdrop]
    exact if_neg (by tauto)

theorem normalized_of_normalizePath {path : Path} (h : normalizePath path = .ok p) :
    Normalized p := by
  unfold normalizePath at h
  simp only at h
  split_ifs at h with hbad
  cases h
  simp only [not_or] at hbad
  refine normalized_iff.mpr ⟨hbad.1, ?_, hbad.2.1, hbad.2.2⟩
  intro hhead
  have := List.head?_dropWhile_not (· = '/') path
  rw [hhead] at this
  simp at this

theorem infix_join {x : Path} (h : ['/', '/'] <:+: d ++ '/' :: x) :
    ['/', '/'] <:+: d ∨ d.getLast? = some '/' ∨ x.head? = some '/' ∨ ['/', '/'] <:+: x := by
  induction d with
  | nil =>
    rw [nil_append, infix_cons_iff] at h
    rcases h with h | h
    · rw [cons_prefix_cons] at h
      obtain ⟨y, rfl⟩ := h.2
      exact .inr (.inr (.inl rfl))
    · exact .inr (.inr (.inr h))
  | cons c d ih =>
    rw [cons_append, infix_cons_iff] at h
    rcases h with h | h
    · obtain ⟨rfl, y, hy⟩ := cons_prefix_cons.mp h
      cases d with
      | nil => exact .inr (.inl rfl)
      | cons c' d =>
        obtain ⟨rfl, -⟩ := List.cons.inj hy
        exact .inl ⟨[], d, rfl⟩
    · rcases ih h with h | h | h | h
      · exact .inl (h.trans (infix_cons infix_rfl))
      · refine .inr (.inl ?_)
        cases d with
        | nil => cases h
        | cons c' d => rw [List.getLast?_cons_cons, h]
      · exact .inr (.inr (.inl h))
      · exact .inr (.inr (.inr h))

/-- **A joined path is normalised exactly if its parts are.** -/
theorem normalized_join {x : Path} : Normalized (d ++ '/' :: x) ↔ Normalized d ∧ Normalized x := by
  have hlast : x ≠ [] → (d ++ '/' :: x).getLast? = x.getLast? := by
    intro hx
    rw [List.getLast?_append_of_ne_nil _ (by simp), List.getLast?_cons_of_ne_nil hx]
  simp only [normalized_iff]
  constructor
  · rintro ⟨-, hhead, hend, hinfix⟩
    have hd : d ≠ [] := by
      rintro rfl
      exact hhead rfl
    have hx : x ≠ [] := by
      rintro rfl
      exact hend (by simp)
    rw [hlast hx] at hend
    refine ⟨⟨hd, ?_, ?_, ?_⟩, hx, ?_, hend, ?_⟩
    · rwa [List.head?_append_of_ne_nil _ hd] at hhead
    · intro h
      obtain ⟨y, rfl⟩ := List.getLast?_eq_some_iff.mp h
      exact hinfix ⟨y, x, by simp⟩
    · exact fun h => hinfix (h.trans (prefix_append ..).isInfix)
    · intro h
      obtain ⟨y, rfl⟩ := List.head?_eq_some_iff.mp h
      exact hinfix ⟨d, y, by simp⟩
    · exact fun h => hinfix (h.trans ⟨d ++ ['/'], [], by simp⟩)
  · rintro ⟨⟨hd, hdhead, hdlast, hdmid⟩, hx, hxhead, hxlast, hxmid⟩
    refine ⟨by simp, ?_, ?_, fun h => ?_⟩
    · rwa [List.head?_append_of_ne_nil _ hd]
    · rwa [hlast hx]
    · rcases infix_join h with h | h | h | h
      exacts [hdmid h, hdlast h, hxhead h, hxmid h]

theorem Normalized.above {a : Path} (hp : Normalized p) (h : AtOrUnder '/' a p) : Normalized a := by
  rcases atOrUnder_iff.mp h with rfl | ⟨x, rfl⟩
  · exact hp
  · exact (normalized_join.mp hp).1

theorem Normalized.relocate {s d p : Path} (hd : Normalized d) (hp : Normalized p)
    (h : AtOrUnder '/' s p) : Normalized (relocate s d p) := by
  rcases atOrUnder_iff.mp h with rfl | ⟨x, rfl⟩
  · rwa [relocate_self]
  · rw [relocate_append]
    exact normalized_join.mpr ⟨hd, (normalized_join.mp hp).2⟩

end UldrenLoom.Vcs

namespace UldrenLoom.Fs

open Vcs

/-! ## Directories -/

section Directories

theorem under_parent {p a b x : Path} (h : rsplitOnce p = some (b, x)) :
    Under '/' a p ↔ AtOrUnder '/' a b := by
  obtain ⟨rfl, hx⟩ := rsplitOnce_eq_some h
  constructor
  · intro hu
    rcases under_or_under (.inr hu) (.inr (under_iff.mpr ⟨x, rfl⟩)) with hab | hba
    · exact hab
    · -- a path between the two has a slash after the last one
      obtain ⟨y, rfl⟩ := under_iff.mp hba
      obtain ⟨z, hz⟩ := under_iff.mp hu
      rw [append_assoc, append_cancel_left_eq, cons_append] at hz
      obtain ⟨-, rfl⟩ := List.cons.inj hz
      exact absurd (by simp) hx
  · exact fun hab => hab.trans_under (under_iff.mpr ⟨x, rfl⟩)

theorem not_under_of_rsplitOnce {p a : Path} (h : rsplitOnce p = none) : ¬ Under '/' a p := by
  intro hu
  obtain ⟨x, rfl⟩ := under_iff.mp hu
  exact rsplitOnce_eq_none.mp h (by simp)

variable {q s : Path}

theorem mem_recordFrom {n : ℕ} {t : Path} {dirs : DirSet} (ht : Normalized t) (hn : t.length ≤ n) :
    q ∈ recordFrom (n + 1) t dirs ↔ q ∈ dirs ∨ AtOrUnder '/' q t := by
  induction n generalizing t dirs with
  | zero => exact absurd (eq_nil_of_length_eq_zero (Nat.le_zero.mp hn)) ht.spec.1
  | succ n ih =>
    rw [recordFrom, if_neg ht.spec.1]
    cases hr : rsplitOnce t with
    | none =>
      rw [SortedSet.mem_insert, AtOrUnder, or_iff_left (not_under_of_rsplitOnce hr), eq_comm,
        or_comm]
    | some r =>
      obtain ⟨parent, x⟩ := r
      have hparent : Normalized parent := by
        obtain ⟨rfl, -⟩ := rsplitOnce_eq_some hr
        exact (normalized_join.mp ht).1
      have hlen : parent.length ≤ n := by
        obtain ⟨rfl, -⟩ := rsplitOnce_eq_some hr
        simp only [length_append, length_cons] at hn
        omega
      rw [ih hparent hlen, SortedSet.mem_insert, ← under_parent hr, AtOrUnder, @eq_comm _ t q]
      tauto

theorem targetDir_eq {d sd : Path} (hsd : Normalized sd) (h : AtOrUnder '/' s sd) :
    targetDir s d sd = relocate s d sd := by
  rcases atOrUnder_iff.mp h with rfl | ⟨x, rfl⟩
  · simp [targetDir]
  · have hx : x ≠ [] := (normalized_join.mp hsd).2.spec.1
    have hne : s ++ '/' :: x ≠ s := by simp
    have hdrop : (s ++ '/' :: x).drop (s ++ ['/']).length = x := by simp
    rw [relocate_append, targetDir, if_neg hne, hdrop]
    exact if_neg hx

variable {D : Type} [LinearOrder D] {hash : Stored D → D} {L : Loom hash} {ns : WorkspaceId}

theorem mem_recordDir {t : Path} (ht : Normalized t) :
    q ∈ (recordDir L ns t).dirsOf ns ↔ q ∈ L.dirsOf ns ∨ AtOrUnder '/' q t := by
  rw [← mem_recordFrom ht le_rfl]
  simp [recordDir, Loom.dirsOf]

theorem recordDirs_frame {β : Type} (g : Loom hash → β) (hg : ∀ L t, g (recordDir L ns t) = g L)
    (L : Loom hash) (s d : Path) (dirs : List Path) : g (recordDirs ns L s d dirs) = g L := by
  unfold recordDirs
  rw [← hg L d]
  generalize recordDir L ns d = L'
  induction dirs generalizing L' with
  | nil => rfl
  | cons sd dirs ih => rw [foldl_cons, ih, hg]

theorem mem_recordDirs {d : Path} {dirs : List Path} (hd : Normalized d)
    (hdirs : ∀ sd ∈ dirs, Normalized sd ∧ AtOrUnder '/' s sd) :
    q ∈ (recordDirs ns L s d dirs).dirsOf ns ↔ q ∈ L.dirsOf ns ∨
      ∃ t ∈ d :: dirs.map (relocate s d), AtOrUnder '/' q t := by
  unfold recordDirs
  simp only [exists_mem_cons_iff]
  rw [← or_assoc, ← mem_recordDir (L := L) hd]
  generalize recordDir L ns d = L'
  induction dirs generalizing L' with
  | nil => simp
  | cons sd dirs ih =>
    obtain ⟨hsd, hunder⟩ := hdirs sd mem_cons_self
    rw [foldl_cons, ih (fun x hx => hdirs x (mem_cons_of_mem _ hx)),
      targetDir_eq hsd hunder, mem_recordDir (hd.relocate hsd hunder), map_cons,
      exists_mem_cons_iff, or_assoc]

theorem mem_dropDirs : q ∈ (dropDirs L ns s).dirsOf ns ↔ q ∈ L.dirsOf ns ∧ ¬ AtOrUnder '/' s q := by
  simp only [dropDirs, Loom.dirsOf, SortedMap.get_update, if_pos]
  cases L.dirs.get ns with
  | none => simp
  | some dirs => simp [AtOrUnder, SortedSet.mem_ofList]

theorem mem_subDirs : q ∈ subDirs ns L s ↔ q ∈ L.dirsOf ns ∧ AtOrUnder '/' s q := by
  simp [subDirs, AtOrUnder]

theorem mem_childFiles : q ∈ childFiles ns L s ↔ slot L ns q ≠ none ∧ Under '/' s q := by
  simp [childFiles, stagedPaths, SortedMap.mem_keys, slot]

end Directories

/-! ## Files -/

section Files

variable {D : Type} [LinearOrder D] {hash : Stored D → D} (env : Env hash) (ns : WorkspaceId)

def written (L : Loom hash) (path : Path) (bytes : Bytes) (mode : UInt32) : Loom hash :=
  putFileSlot { L with heap := L.heap.stored env.toEnv bytes } ns path (env.contentAddress bytes)
    bytes.length mode

/-- A file can be written at a path: this is granted, there is no directory, the parent is one, and the
store takes it. -/
def Writable (L : Loom hash) (path : Path) : Prop :=
  writeGranted env ns path = .ok () ∧ dirExists L ns path = false ∧ parentExists L ns path = true ∧
    env.stores ns path = .ok ()

variable {env ns} {L L' : Loom hash} {path d s : Path}

theorem checkFileTarget_eq_ok : checkFileTarget L ns path = .ok () ↔
    dirExists L ns path = false ∧ parentExists L ns path = true := by
  unfold checkFileTarget
  cases dirExists L ns path <;> cases parentExists L ns path <;> simp

theorem Writable.congr (h : L'.dirsOf ns = L.dirsOf ns) :
    Writable env ns L' path ↔ Writable env ns L path := by
  unfold Writable parentExists dirExists
  rw [h]

theorem exec_writeFile_of_writable (hp : Normalized path) (h : Writable env ns L path)
    (bytes : Bytes) (mode : UInt32) :
    exec (writeFile env ns path bytes mode) L = (.ok (), written env ns L path bytes mode) := by
  rw [writeFile, exec_lift_bind_of_ok hp, exec_lift_bind_of_ok h.1, writeFileNorm, exec_get_bind,
    exec_lift_bind_of_ok (checkFileTarget_eq_ok.mpr ⟨h.2.1, h.2.2.1⟩), exec_lift_bind_of_ok h.2.2.2,
    exec_storeAt]
  rfl

theorem exec_writeFile_of_not_writable (hp : Normalized path) (h : ¬ Writable env ns L path)
    (bytes : Bytes) (mode : UInt32) :
    ∃ e, exec (writeFile env ns path bytes mode) L = (.error e, L) := by
  rw [writeFile, exec_lift_bind_of_ok hp]
  cases hg : writeGranted env ns path with
  | error e => exact ⟨e, exec_lift_bind_of_error rfl _ _⟩
  | ok u =>
    rw [exec_lift_bind_of_ok rfl, writeFileNorm, exec_get_bind]
    cases hc : checkFileTarget L ns path with
    | error e => exact ⟨e, exec_lift_bind_of_error rfl _ _⟩
    | ok u' =>
      rw [exec_lift_bind_of_ok rfl]
      cases hs : env.stores ns path with
      | error e => exact ⟨e, exec_lift_bind_of_error rfl _ _⟩
      | ok u'' =>
        obtain ⟨hd, hparent⟩ := checkFileTarget_eq_ok.mp hc
        exact absurd ⟨hg, hd, hparent, hs⟩ h

theorem exec_removeFile_of_granted (hp : Normalized path) (h : writeGranted env ns path = .ok ()) :
    exec (removeFile env ns path) L = (.ok (), removeFileNorm L ns path) := by
  rw [removeFile, exec_lift_bind_of_ok hp, exec_lift_bind_of_ok h]
  rfl

theorem exec_removeFile_of_denied (hp : Normalized path) (h : writeGranted env ns path ≠ .ok ()) :
    ∃ e, exec (removeFile env ns path) L = (.error e, L) := by
  rw [removeFile, exec_lift_bind_of_ok hp]
  cases hg : writeGranted env ns path with
  | error e => exact ⟨e, exec_lift_bind_of_error rfl _ _⟩
  | ok u => exact absurd hg h

/-! ## Lists of files -/

variable (env ns) in
/-- The state with a copied file written below a directory. -/
def writtenCopy (d : Path) (L : Loom hash) (f : CopiedFile) : Loom hash :=
  written env ns L (d ++ '/' :: f.1) f.2.2 f.2.1

variable (ns) in
def removedFiles (L : Loom hash) (paths : List Path) : Loom hash :=
  paths.foldl (fun L key => removeFileNorm L ns key) L

variable {files : List CopiedFile}

/-- **Writing files**, all of them or up to the first that is refused. -/
theorem writeFiles_ends (hnorm : ∀ f ∈ files, Normalized (d ++ '/' :: f.1)) (L : Loom hash) :
    ((∀ f ∈ files, Writable env ns L (d ++ '/' :: f.1)) ∧
      exec (writeFiles env ns d files) L = (.ok (), files.foldl (writtenCopy env ns d) L)) ∨
    ∃ pre f post e, files = pre ++ f :: post ∧ (∀ g ∈ pre, Writable env ns L (d ++ '/' :: g.1)) ∧
      ¬ Writable env ns L (d ++ '/' :: f.1) ∧
      exec (writeFiles env ns d files) L = (.error e, pre.foldl (writtenCopy env ns d) L) := by
  have hguard : Guarded (fun f : CopiedFile => Writable env ns L (d ++ '/' :: f.1))
      (writtenCopy env ns d) (fun L' => L'.dirsOf ns = L.dirsOf ns)
      (fun f => writeFile env ns (d ++ '/' :: f.1) f.2.2 f.2.1) files := by
    refine ⟨fun {f L'} hf hd hw => ?_, fun {f L'} hf hd hw => ?_⟩
    · exact ⟨exec_writeFile_of_writable (hnorm f hf) ((Writable.congr hd).mpr hw) _ _, hd⟩
    · exact exec_writeFile_of_not_writable (hnorm f hf) (mt (Writable.congr hd).mp hw) _ _
  exact hguard.forM rfl

/-- **Removing files**, all of them or up to the first that is refused. -/
theorem removeFiles_ends {paths : List Path} (hnorm : ∀ key ∈ paths, Normalized key)
    (L : Loom hash) :
    ((∀ key ∈ paths, writeGranted env ns key = .ok ()) ∧
      exec (removeFiles env ns paths) L = (.ok (), removedFiles ns L paths)) ∨
    ∃ pre key post e, paths = pre ++ key :: post ∧ (∀ k ∈ pre, writeGranted env ns k = .ok ()) ∧
      writeGranted env ns key ≠ .ok () ∧
      exec (removeFiles env ns paths) L = (.error e, removedFiles ns L pre) := by
  have hguard : Guarded (fun key : Path => writeGranted env ns key = .ok ())
      (fun L key => removeFileNorm L ns key) (fun _ => True) (removeFile env ns) paths := by
    refine ⟨fun {key L'} hkey _ hw => ?_, fun {key L'} hkey _ hw => ?_⟩
    · exact ⟨exec_removeFile_of_granted (hnorm key hkey) hw, trivial⟩
    · exact exec_removeFile_of_denied (hnorm key hkey) hw
  exact hguard.forM trivial

theorem slot_written (path : Path) (bytes : Bytes) (mode : UInt32) (p : Path) :
    slot (written env ns L path bytes mode) ns p =
      if path = p then some (.file ⟨env.contentAddress bytes, mode⟩) else slot L ns p := by
  rw [written, slot_putFileSlot]
  simp only [true_and]
  rfl

theorem slot_removedFiles (paths : List Path) (p : Path) :
    slot (removedFiles ns L paths) ns p = if p ∈ paths then none else slot L ns p := by
  unfold removedFiles
  induction paths generalizing L with
  | nil => simp
  | cons key paths ih =>
    rw [foldl_cons, ih, slot_removeFileNorm]
    by_cases hk : key = p
    · simp [hk]
    · simp [hk, Ne.symm hk]

theorem removedFiles_frame {β : Type} (g : Loom hash → β)
    (hg : ∀ L key, g (removeFileNorm L ns key) = g L) (L : Loom hash) (paths : List Path) :
    g (removedFiles ns L paths) = g L := by
  unfold removedFiles
  induction paths generalizing L with
  | nil => rfl
  | cons key paths ih => rw [foldl_cons, ih, hg]

theorem dirsOf_removedFiles (paths : List Path) :
    (removedFiles ns L paths).dirsOf ns = L.dirsOf ns :=
  removedFiles_frame (fun L => L.dirsOf ns) (fun _ _ => rfl) L paths

theorem dirsOf_foldl_writtenCopy (d : Path) (files : List CopiedFile) :
    (files.foldl (writtenCopy env ns d) L).dirsOf ns = L.dirsOf ns := by
  induction files generalizing L with
  | nil => rfl
  | cons f files ih =>
    rw [foldl_cons, ih]
    rfl

theorem slot_foldl_of_forall_ne {p : Path} (h : ∀ f ∈ files, d ++ '/' :: f.1 ≠ p) :
    slot (files.foldl (writtenCopy env ns d) L) ns p = slot L ns p := by
  induction files generalizing L with
  | nil => rfl
  | cons f files ih =>
    rw [foldl_cons, ih fun g hg => h g (mem_cons_of_mem _ hg), writtenCopy, slot_written,
      if_neg (h f mem_cons_self)]

theorem slot_foldl_of_mem (hnd : (files.map Prod.fst).Nodup) {f : CopiedFile} (hf : f ∈ files) :
    slot (files.foldl (writtenCopy env ns d) L) ns (d ++ '/' :: f.1) =
      some (.file ⟨env.contentAddress f.2.2, f.2.1⟩) := by
  induction files generalizing L with
  | nil => cases hf
  | cons g files ih =>
    rw [map_cons, nodup_cons] at hnd
    rw [foldl_cons]
    rcases mem_cons.mp hf with rfl | hf
    · rw [slot_foldl_of_forall_ne, writtenCopy, slot_written, if_pos rfl]
      intro g hg heq
      have hfst : g.1 = f.1 := (List.cons.inj (append_cancel_left heq)).2
      exact hnd.1 (hfst ▸ mem_map_of_mem hg)
    · exact ih hnd.2 hf

theorem slot_foldl_ne_none {p : Path} : slot (files.foldl (writtenCopy env ns d) L) ns p ≠ none ↔
      slot L ns p ≠ none ∨ ∃ f ∈ files, d ++ '/' :: f.1 = p := by
  induction files generalizing L with
  | nil => simp
  | cons f files ih =>
    rw [foldl_cons, ih, writtenCopy, slot_written, exists_mem_cons_iff]
    by_cases hp : d ++ '/' :: f.1 = p
    · simp [hp]
    · simp [hp]

/-! ## What is copied -/

variable [ToString D]

variable (env ns L) in
/-- The copy of a file below `s`. -/
def copyOf (s key : Path) : CopiedFile :=
  (key.drop (s ++ ['/']).length, (fileMode L ns key).getD defaultFileMode,
    (readFile env ns L key).toOption.getD [])

theorem snapshotFiles_eq_ok (h : snapshotFiles env ns L s = .ok files) :
    files = (childFiles ns L s).map (copyOf env ns L s) ∧
      ∀ key ∈ childFiles ns L s, ∃ bytes, readFile env ns L key = .ok bytes := by
  constructor
  · refine eq_map_of_mapM (fun key f hf => ?_) h
    obtain ⟨bytes, hb, hf⟩ := of_bind hf
    rw [← Except.ok.inj hf, copyOf, hb]
    rfl
  · intro key hkey
    obtain ⟨f, -, hf⟩ := Lists.exists_mem_of_forall₂ (mapM_eq_ok.mp h).flip hkey
    obtain ⟨bytes, hb, -⟩ := of_bind hf
    exact ⟨bytes, hb⟩

theorem nodup_snapshotFiles (h : snapshotFiles env ns L s = .ok files) : (files.map Prod.fst).Nodup := by
  obtain ⟨rfl, -⟩ := snapshotFiles_eq_ok h
  rw [map_map]
  refine List.Nodup.map_on (fun key hkey key' hkey' heq => ?_) ((L.workOf ns).nodup_keys.filter _)
  obtain ⟨x, rfl⟩ := under_iff.mp (mem_childFiles.mp hkey).2
  obtain ⟨y, rfl⟩ := under_iff.mp (mem_childFiles.mp hkey').2
  have hxy : x = y := by simpa [copyOf] using heq
  rw [hxy]

theorem copyOf_path {key : Path} (h : Under '/' s key) :
    d ++ '/' :: (copyOf env ns L s key).1 = relocate s d key := by
  obtain ⟨x, rfl⟩ := under_iff.mp h
  simp [copyOf]

end Files

end UldrenLoom.Fs
