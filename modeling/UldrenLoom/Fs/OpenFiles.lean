import UldrenLoom.Fs.Handles

/-!
# Open files along a run

A checkout replaces slots of the working tree and leaves the inodes alone, so that it can part an open
file from its path. An opening counts its handle before it empties the file, so that a put that fails
leaves a count without a handle.

* **`always_iff`**: open files are right along a run exactly if every checkout keeps the files that are open and no
  put fails after a handle was counted.
* **`Sample.checkout_parts`**: a checkout that does not keep an open file.
-/

namespace UldrenLoom.Fs

open ByteString Fallible Effect Subtree Vcs SortedMap

variable {D : Type} [LinearOrder D] [ToString D] {hash : Stored D → D}

/-! ## Checkouts -/

section Checkouts

variable (env : Env hash) (L : Loom hash) (ns : WorkspaceId)

/-- The working tree that a checkout of a commit puts in place, unless it fails. -/
def commitTree (commit : D) : Option (WorkTree D) :=
  match env.authorize ns .read, flattenCommit L.heap.store commit with
  | .ok (), .ok (files, _) => some files
  | _, _ => none

/-- The working tree that a switch to a branch puts in place, unless it fails. -/
def branchTree (branch : Path) : Option (WorkTree D) :=
  match env.authorizeRef ns (Loom.branchRef branch) .read,
    env.authorizeRef ns (Loom.branchRef branch) .write, setHead L.registry ns branch with
  | .ok (), .ok (), .ok registry =>
    match registry.branchTip ns branch with
    | .ok (some tip) => commitTree env L ns tip
    | .ok none => some SortedMap.empty
    | .error _ => none
  | _, _, _ => none

/-- The working tree that restoring a path puts in place, unless it fails. -/
def fileTree (rev path : Path) : Option (WorkTree D) :=
  match env.authorize ns .write, normalizePath path, revisionTree env ns L rev with
  | .ok (), .ok path, .ok (files, _) =>
    match files.get path with
    | some e => some ((L.workOf ns).insert path e)
    | none => some ((L.workOf ns).erase path)
  | _, _, _ => none

/-- The working tree that restoring the paths under a prefix puts in place, unless it fails. -/
def pathTree (rev pre : Path) : Option (WorkTree D) :=
  match env.authorize ns .write, revisionTree env ns L rev with
  | .ok (), .ok (files, _) => some (restoredFiles (trimSlashes pre) (L.workOf ns) files)
  | _, _ => none

/-- The working tree that an operation puts in place of the old one. -/
def Op.tree : Op D → Option (WorkTree D)
  | .checkoutCommit commit => commitTree env L ns commit
  | .checkoutBranch branch => branchTree env L ns branch
  | .restoreFile rev path => fileTree env L ns rev path
  | .restorePath rev pre => pathTree env L ns rev pre
  | _ => none

end Checkouts

section

variable {env : Env hash} {L : Loom hash} {ns : WorkspaceId}

/-- Only the working tree of one workspace, its index and its directories, and the registry differ. -/
structure Replaced (ns : WorkspaceId) (w : WorkTree D) (L L' : Loom hash) : Prop where
  heap : L'.heap = L.heap
  inodes : L'.inodes = L.inodes
  handles : L'.handles = L.handles
  pathToInode : L'.pathToInode = L.pathToInode
  nextInode : L'.nextInode = L.nextInode
  nextHandle : L'.nextHandle = L.nextHandle
  work : ∀ ns', L'.workOf ns' = if ns = ns' then w else L.workOf ns'

omit [ToString D] in
theorem replaced_refl (L : Loom hash) : Replaced ns (L.workOf ns) L L := by
  refine ⟨rfl, rfl, rfl, rfl, rfl, rfl, fun ns' => ?_⟩
  split_ifs with h
  · rw [h]
  · rfl

variable {L' : Loom hash}

omit [ToString D] in
theorem workOf_insert (w : WorkTree D) (h : L'.work = L.work.insert ns w) (ns' : WorkspaceId) :
    L'.workOf ns' = if ns = ns' then w else L.workOf ns' := by
  rw [Loom.workOf, h, get_insert]
  split_ifs <;> rfl

variable (env L ns) in
theorem replaced_checkoutCommit (commit : D) : Replaced ns
    ((commitTree env L ns commit).getD (L.workOf ns)) L
      (exec (Loom.checkoutCommit env.toEnv ns commit) L).2 := by
  rw [Loom.exec_checkoutCommit, commitTree]
  rcases env.authorize ns .read with e | ⟨⟩
  · exact replaced_refl L
  · rcases flattenCommit L.heap.store commit with e | ⟨files, dirs⟩
    · exact replaced_refl L
    · exact ⟨rfl, rfl, rfl, rfl, rfl, rfl, workOf_insert files rfl⟩

variable {op : Op D}

/-- **What a checkout does** to the state of open files: nothing but to the working tree. -/
theorem checkout_spec (hop : op.IsCheckout) :
    Replaced ns ((op.tree env L ns).getD (L.workOf ns)) L (exec (op.run env ns) L).2 := by
  cases op with
  | checkoutCommit commit => exact replaced_checkoutCommit env L ns commit
  | checkoutBranch branch =>
    rw [Op.run, Op.tree, checkoutBranch, branchTree, exec_lift_bind]
    rcases env.authorizeRef ns (Loom.branchRef branch) .read with e | ⟨⟩
    · exact replaced_refl L
    rw [exec_lift_bind]
    rcases env.authorizeRef ns (Loom.branchRef branch) .write with e | ⟨⟩
    · exact replaced_refl L
    rw [exec_get_bind, exec_lift_bind]
    rcases setHead L.registry ns branch with e | registry
    · exact replaced_refl L
    dsimp only
    rw [exec_modify_bind, exec_get_bind, exec_lift_bind]
    rcases registry.branchTip ns branch with e | _ | tip
    · exact ⟨rfl, rfl, rfl, rfl, rfl, rfl, (replaced_refl L).work⟩
    · exact ⟨rfl, rfl, rfl, rfl, rfl, rfl, workOf_insert SortedMap.empty rfl⟩
    · have h := replaced_checkoutCommit env { L with registry := registry } ns tip
      exact ⟨h.heap, h.inodes, h.handles, h.pathToInode, h.nextInode, h.nextHandle, h.work⟩
  | restoreFile rev path =>
    rw [Op.run, Op.tree, restoreFile, fileTree, exec_lift_bind]
    rcases env.authorize ns .write with e | ⟨⟩
    · exact replaced_refl L
    rw [exec_lift_bind]
    rcases normalizePath path with e | path
    · exact replaced_refl L
    dsimp only
    rw [exec_get_bind, exec_lift_bind]
    rcases revisionTree env ns L rev with e | ⟨files, dirs⟩
    · exact replaced_refl L
    dsimp only
    cases files.get path with
    | some e => exact ⟨rfl, rfl, rfl, rfl, rfl, rfl, workOf_insert _ rfl⟩
    | none =>
      refine ⟨rfl, rfl, rfl, rfl, rfl, rfl, fun ns' => ?_⟩
      change ((L.work.update ns _).get ns').getD _ = _
      rw [get_update]
      split_ifs with hns
      · subst hns
        cases hw : L.work.get ns with
        | none =>
          rw [Loom.workOf, hw]
          rfl
        | some w =>
          rw [Loom.workOf, hw]
          rfl
      · rfl
  | restorePath rev pre =>
    rw [Op.run, Op.tree, restorePath, pathTree, exec_lift_bind]
    rcases env.authorize ns .write with e | ⟨⟩
    · exact replaced_refl L
    rw [exec_get_bind, exec_lift_bind]
    rcases revisionTree env ns L rev with e | ⟨files, dirs⟩
    · exact replaced_refl L
    dsimp only
    by_cases hpre : trimSlashes pre = []
    · rw [if_pos hpre]
      exact ⟨rfl, rfl, rfl, rfl, rfl, rfl, workOf_insert _ rfl⟩
    · rw [if_neg hpre]
      exact ⟨rfl, rfl, rfl, rfl, rfl, rfl, workOf_insert _ rfl⟩
  | _ => exact absurd hop id

/-! ## Reading through a handle -/

omit [ToString D] in
theorem exec_allocHandle_ok {oh : OpenHandle} {hd : UInt64}
    (h : exec (allocHandle oh) L = (.ok hd, L')) :
    hd = L.nextHandle ∧ L' = withHandle L oh ∧ L.nextHandle.toNat + 1 < 2 ^ 64 := by
  rw [allocHandle, exec_get_bind] at h
  dsimp only at h
  split_ifs at h with hroom
  · obtain ⟨hid, hL⟩ := Prod.mk.inj h
    exact ⟨(Except.ok.inj hid).symm, hL.symm, hroom⟩
  · cases (Prod.mk.inj h).1

variable {path : Path}

omit [ToString D] in
theorem exec_linkInode_ok {addr : D} {size : ℕ} {mode : UInt32} {id : UInt64}
    (h : exec (linkInode ns path addr size mode) L = (.ok id, L')) :
    id = L.nextInode ∧ L' = withInode L ns path addr size mode := by
  rw [linkInode, allocInode] at h
  simp only [bind_assoc, exec_get_bind] at h
  split_ifs at h
  · obtain ⟨hid, hL⟩ := Prod.mk.inj h
    exact ⟨(Except.ok.inj hid).symm, hL.symm⟩
  · cases (Prod.mk.inj h).1

theorem openInode_read (hl : Linked Set.univ L) {id : UInt64}
    {created : Result Unit}
    (h : exec (openInode env ns created path .read) L = (.ok id, L')) :
    ∃ f ino, slot L ns path = some (.file f) ∧ L'.heap = L.heap ∧
      L'.nextHandle = L.nextHandle ∧ L'.inodes.get id = some ino ∧ ino.ns = ns ∧ ino.path = some path ∧
        ino.contentAddr = f.contentAddr := by
  rw [openInode, exec_get_bind] at h
  cases hopen : L.pathToInode.get (toLex (ns, path)) with
  | some id₀ =>
    rw [hopen] at h
    dsimp only at h
    obtain ⟨ino, hino, rfl, hpath⟩ := hl.back (Set.mem_univ _) hopen
    rw [shareInode, exec_get_bind, hino] at h
    dsimp only at h
    split_ifs at h
    · obtain ⟨hid, rfl⟩ := Prod.mk.inj h
      cases hid
      refine ⟨⟨ino.contentAddr, ino.mode⟩, { ino with openCount := ino.openCount + 1 },
        (hl.held hino (Set.mem_univ _) hpath).1, rfl, rfl, ?_, rfl, hpath, rfl⟩
      exact (get_update ..).trans (by rw [if_pos rfl, hino]; rfl)
    · cases (Prod.mk.inj h).1
  | none =>
    rw [hopen] at h
    obtain ⟨f, hf, h⟩ := exec_lift_bind_eq_ok.mp h
    cases f with
    | none =>
      cases (Prod.mk.inj h).1
    | some f =>
      obtain ⟨size, -, h⟩ := exec_lift_bind_eq_ok.mp h
      obtain ⟨rfl, rfl⟩ := exec_linkInode_ok h
      exact ⟨f, _, fileSlot_eq_some.mp hf, rfl, rfl, (get_insert ..).trans (if_pos rfl),
        rfl, rfl, rfl⟩

def wholeLength : UInt64 := 0xFFFFFFFFFFFFFFFF

/-- **Opening a path and reading it all** gives what reading the path gives. -/
theorem open_read_eq (hl : Linked Set.univ L) {hd : UInt64}
    (hi : L.nextHandle.toNat + 1 < 2 ^ 64 → Intact env L')
    (h : exec (fileOpen env ns path .read) L = (.ok hd, L')) :
    (exec (fileRead env hd wholeLength) L').1 = readFile env ns L path := by
  obtain ⟨p, hp, h⟩ := exec_lift_bind_eq_ok.mp h
  rw [exec_get_bind] at h
  obtain ⟨⟨⟩, hchecks, h⟩ := exec_lift_bind_eq_ok.mp h
  have hauth : env.authorizePath ns p .read = .ok () := by
    obtain ⟨⟨⟩, hr, -⟩ := of_bind hchecks
    exact hr
  obtain ⟨id, L₁, hopen, h⟩ := exec_bind_eq_ok.mp h
  obtain ⟨rfl, rfl, hroom⟩ := exec_allocHandle_ok h
  obtain ⟨f, ino, hslot, hheap, hnext, hino, rfl, hpath, haddr⟩ := openInode_read hl hopen
  -- the handle is there, and its inode has the content of the path
  have hget : (withHandle L₁ ⟨id, 0, .read⟩).handles.get L₁.nextHandle = some ⟨id, 0, .read⟩ :=
    (get_insert ..).trans (if_pos rfl)
  have hinode : (withHandle L₁ ⟨id, 0, .read⟩).inodes.get id = some ino := hino
  have hreading : readingHandle env (withHandle L₁ ⟨id, 0, .read⟩) L₁.nextHandle =
      .ok (⟨id, 0, .read⟩, ino) := by
    have hhandle : handle (withHandle L₁ ⟨id, 0, .read⟩) L₁.nextHandle = .ok ⟨id, 0, .read⟩ := by
      rw [handle, hget]
    have hhino : handleInode (withHandle L₁ ⟨id, 0, .read⟩) id = .ok ino := by
      rw [handleInode, hinode]
    rw [readingHandle, hhandle, ok_bind]
    dsimp only
    rw [if_neg (by decide), authorizeHandle]
    rw [hhino, ok_bind, hpath]
    dsimp only
    rw [hauth, ok_bind, ok_bind]
  obtain ⟨bytes, hc, -⟩ := (hi (hnext ▸ hroom)).inode hinode
  have hall : contentReadRange (withHandle L₁ ⟨id, 0, .read⟩).heap ino.contentAddr
      (0 : UInt64).toNat wholeLength.toNat = .ok bytes := by
    rw [contentReadRange_content hc, UInt64.toNat_zero, List.drop_zero, List.take_of_length_le]
    exact Nat.le_of_lt_succ hc.1
  have hload : readFileNorm ino.ns L p = .ok bytes := by
    rw [readFileNorm, fileSlot_eq_some.mpr hslot, ok_bind]
    dsimp only
    rw [← haddr, ← hheap]
    exact loadContent_content hc
  rw [fileRead, exec_get_bind, exec_lift_bind_of_ok hreading, readFile, hp, ok_bind, hauth, ok_bind,
    hload]
  rw [exec_lift_bind_of_ok hall]
  rfl

/-! ## Runs -/

/-- The state of open files is right, and content is whole. -/
structure Consistent (env : Env hash) (L : Loom hash) : Prop where
  linked : Linked Set.univ L
  counted : Counted L
  intact : Intact env L

/-- A tree has the files of the inodes that are linked in a workspace. -/
def Holding (L : Loom hash) (ns : WorkspaceId) (w : WorkTree D) : Prop :=
  ∀ id ino p, L.inodes.get id = some ino → ino.ns = ns → ino.path = some p →
    w.get p = some (.file ⟨ino.contentAddr, ino.mode⟩)

omit [ToString D] in
theorem holding_iff {w : WorkTree D} : Holding L ns w ↔ ∀ e ∈ L.inodes.entries, e.2.ns = ns →
    ∀ p ∈ e.2.path, w.get p = some (.file ⟨e.2.contentAddr, e.2.mode⟩) :=
  ⟨fun h e he hns p hp => h e.1 e.2 p (get_eq_some.mpr he) hns hp,
    fun h _ _ p hget hns hp => h _ (get_eq_some.mp hget) hns p hp⟩

instance (w : WorkTree D) : Decidable (Holding L ns w) := decidable_of_iff' _ holding_iff

/-- **What should hold of open files**: linked inodes agree with their paths, count their handles,
and are read as their paths are. -/
structure Sound (env : Env hash) (L : Loom hash) : Prop where
  linked : ∀ id ino p, L.inodes.get id = some ino → ino.path = some p →
    slot L ino.ns p = some (.file ⟨ino.contentAddr, ino.mode⟩)
  counted : ∀ id ino, L.inodes.get id = some ino → ino.openCount.toNat = handleCount L id
  reads : ∀ ns path hd L', exec (fileOpen env ns path .read) L = (.ok hd, L') →
    (exec (fileRead env hd wholeLength) L').1 = readFile env ns L path

/-- The state after an operation, whether it succeeds or fails. -/
def step (env : Env hash) (L : Loom hash) (op : WorkspaceId × Op D) : Loom hash :=
  (exec (op.2.run env op.1) L).2

/-- A call of a run, with the outcomes of the two puts of an opening: of the content of a file that it
creates, and of the content that it empties a file to. Every other operation stores what it stores
before it changes anything else. -/
structure Call (D : Type) where
  ns : WorkspaceId
  op : Op D
  created : Result Unit
  emptied : Result Unit

/-- The state after a call, whether it succeeds or fails. -/
def Call.after (env : Env hash) (L : Loom hash) (c : Call D) : Loom hash :=
  match c.op with
  | .fileOpen path mode => (exec (fileOpenWith env c.ns c.created c.emptied path mode) L).2
  | op => step env L (c.ns, op)

/-- There is room for the handles that are opened, and what is written has a length. -/
def Fits (env : Env hash) : Loom hash → List (Call D) → Prop
  | _, [] => True
  | L, c :: calls => c.op.Sized ∧
      (∀ path mode, c.op = .fileOpen path mode → L.nextHandle.toNat + 1 < 2 ^ 64) ∧
      Fits env (c.after env L) calls

/-- What should hold of open files does at every point of a run. -/
def Always (env : Env hash) : Loom hash → List (Call D) → Prop
  | L, [] => Sound env L
  | L, c :: calls => Sound env L ∧ Always env (c.after env L) calls

/-- Every checkout of a run puts a tree in place that has the files of the linked inodes. -/
def AllHolding (env : Env hash) : Loom hash → List (Call D) → Prop
  | _, [] => True
  | L, c :: calls => (∀ w, c.op.tree env L c.ns = some w → Holding L c.ns w) ∧
      AllHolding env (c.after env L) calls

instance decidableAllHolding (env : Env hash) : ∀ L calls, Decidable (AllHolding env L calls)
  | _, [] => .isTrue trivial
  | L, c :: calls => @instDecidableAnd _ _
      (decidable_of_iff (∀ w ∈ c.op.tree env L c.ns, Holding L c.ns w) Iff.rfl)
      (decidableAllHolding env (c.after env L) calls)

/-- A path that is opened for writing has an inode, has a file to link one to, or can be created. -/
def Openable (L : Loom hash) (ns : WorkspaceId) (created : Result Unit) (path : Path) : Prop :=
  match L.pathToInode.get (toLex (ns, path)) with
  | some id => ∃ ino, L.inodes.get id = some ino ∧ ino.openCount.toNat + 1 < 2 ^ 32
  | none => L.nextInode.toNat + 1 < 2 ^ 64 ∧
      match slot L ns path with
      | some (.file f) => ∃ size, contentSize L.heap f.contentAddr = .ok size
      | some _ => False
      | none => parentExists L ns path = true ∧ created = .ok ()

/-- An opening for writing gets to count its handle: it passes the checks and has an inode. -/
def Opens (env : Env hash) (L : Loom hash) (ns : WorkspaceId) (created : Result Unit) (path : Path) :
    Prop :=
  ∃ p, normalizePath path = .ok p ∧ openChecks env ns L p .write = .ok () ∧ Openable L ns created p

/-- A call does not fail between counting a handle and opening it. -/
def Call.Emptied (env : Env hash) (L : Loom hash) (c : Call D) : Prop :=
  match c.op with
  | .fileOpen path .write => c.emptied = .ok () ∨ ¬ Opens env L c.ns c.created path
  | _ => True

/-- No put of a run fails after a handle was counted. -/
def AllEmptied (env : Env hash) : Loom hash → List (Call D) → Prop
  | _, [] => True
  | L, c :: calls => c.Emptied env L ∧ AllEmptied env (c.after env L) calls

theorem Consistent.of_steps (hc : Consistent env L) (h : Steps True env Set.univ L L') :
    Consistent env L' := by
  obtain ⟨hacts, hintact⟩ := h fun _ => hc.intact
  exact ⟨preserved_of_steps (fun _ _ ha => ha.linked) hacts hc.linked,
    preserved_of_steps (fun _ _ ha => ha.counted) hacts hc.counted, hintact trivial⟩

omit [ToString D] in
theorem Linked.inode_ne_none (hl : Linked Set.univ L) (path : Path) (id : UInt64)
    (hget : L.pathToInode.get (toLex (ns, path)) = some id) : L.inodes.get id ≠ none := by
  obtain ⟨ino, hino, -⟩ := hl.back (Set.mem_univ _) hget
  simp [hino]

variable (ns) in
theorem Consistent.step_steps (hd : Digests env) (hc : Consistent env L) (hop : ¬ op.IsCheckout)
    (hsized : op.Sized)
    (hroom : ∀ path mode, op = .fileOpen path mode → L.nextHandle.toNat + 1 < 2 ^ 64) :
    Consistent env (exec (op.run env ns) L).2 := by
  exact hc.of_steps (steps_run hop (fun _ => ⟨hd, hsized⟩) (Set.mem_univ _) hroom
    hc.linked.inode_ne_none)

omit [ToString D] in
theorem Replaced.linked_iff {w : WorkTree D} (hr : Replaced ns w L L') (hl : Linked Set.univ L) :
    Linked Set.univ L' ↔ Holding L ns w := by
  have hslot : ∀ ns' p, slot L' ns' p = if ns = ns' then w.get p else slot L ns' p := by
    intro ns' p
    rw [slot, hr.work]
    split_ifs <;> rfl
  constructor
  · intro h id ino p hino hns hp
    have := (h.held (hr.inodes ▸ hino) (Set.mem_univ _) hp).1
    rwa [hslot, if_pos hns.symm] at this
  · intro h
    refine ⟨fun hget => ?_, fun {id ino p} hget _ hp => ?_, fun {ns' p id} _ hget => ?_⟩
    · rw [hr.nextInode]
      exact hl.fresh (hr.inodes ▸ hget)
    · rw [hr.inodes] at hget
      obtain ⟨hheld, hback⟩ := hl.held hget (Set.mem_univ _) hp
      rw [hslot, hr.pathToInode]
      refine ⟨?_, hback⟩
      split_ifs with hns
      · exact h id ino p hget hns.symm hp
      · exact hheld
    · rw [hr.pathToInode] at hget
      rw [hr.inodes]
      exact hl.back (Set.mem_univ _) hget

omit [ToString D] in
theorem Consistent.holding (hl : Linked Set.univ L) : Holding L ns (L.workOf ns) := by
  rintro id ino p hino rfl hp
  exact (hl.held hino (Set.mem_univ _) hp).1

theorem Consistent.sound (hd : Digests env) (hc : Consistent env L) : Sound env L := by
  refine ⟨fun id ino p hget hp => (hc.linked.held hget (Set.mem_univ _) hp).1,
    fun id ino hget => hc.counted.count hget, fun ns path hd' L' h => ?_⟩
  refine open_read_eq hc.linked (fun hroom => ?_) h
  have hkept : Consistent env (exec ((Op.fileOpen path .read).run env ns) L).2 :=
    hc.step_steps ns hd not_false trivial fun _ _ _ => hroom
  rw [Op.run, exec_bind_of_ok h] at hkept
  exact hkept.intact

theorem Op.tree_eq_none (hop : ¬ op.IsCheckout) : op.tree env L ns = none := by
  cases op with
  | checkoutCommit | checkoutBranch | restoreFile | restorePath => exact absurd trivial hop
  | _ => rfl

variable (ns) in
theorem Consistent.checkout_iff (hd : Digests env) (hc : Consistent env L) (hop : op.IsCheckout) :
    (Sound env (exec (op.run env ns) L).2 ↔ ∀ w, op.tree env L ns = some w → Holding L ns w) ∧
      (Sound env (exec (op.run env ns) L).2 → Consistent env (exec (op.run env ns) L).2) := by
  have hr : Replaced ns ((op.tree env L ns).getD (L.workOf ns)) L (exec (op.run env ns) L).2 :=
    checkout_spec hop
  generalize (exec (op.run env ns) L).2 = L' at hr ⊢
  have hholding : Sound env L' → Holding L ns ((op.tree env L ns).getD (L.workOf ns)) := by
    rintro hs id ino p hget rfl hp
    have := hs.linked id ino p (hr.inodes ▸ hget) hp
    rwa [slot, hr.work, if_pos rfl] at this
  have hcons : Holding L ns ((op.tree env L ns).getD (L.workOf ns)) → Consistent env L' := by
    intro hh
    refine ⟨(hr.linked_iff hc.linked).mpr hh, ?_, ?_⟩
    · exact hc.counted.of_inodes hr.nextInode hr.nextHandle hr.handles fun i => by rw [hr.inodes]
    · exact ⟨hr.heap ▸ hc.intact.heap, fun hget => hr.heap ▸ hc.intact.inode (hr.inodes ▸ hget)⟩
  refine ⟨⟨fun hs w hw => ?_, fun h => (hcons ?_).sound hd⟩, fun hs => hcons (hholding hs)⟩
  · have := hholding hs
    rwa [hw] at this
  · cases htree : op.tree env L ns with
    | none => exact Consistent.holding hc.linked
    | some w => exact h w htree

/-! ## Openings -/

variable {created : Result Unit}

variable (created ns) in
/-- **What an opening does to its inode**: it counts one more handle, or fails and changes no inode. -/
theorem openInode_spec (hd : Digests env) (hc : Consistent env L) (path : Path) :
    (Openable L ns created path ∧ ∃ id L₁ ino,
      exec (openInode env ns created path .write) L = (.ok id, L₁) ∧ L₁.handles = L.handles ∧
        L₁.inodes.get id = some ino ∧ ino.openCount.toNat = handleCount L id + 1) ∨
    ¬ Openable L ns created path ∧ ∃ e L₁,
      exec (openInode env ns created path .write) L = (.error e, L₁) ∧ Steps True env Set.univ L L₁ := by
  rw [openInode, exec_get_bind]
  unfold Openable
  cases hopen : L.pathToInode.get (toLex (ns, path)) with
  | some id =>
    obtain ⟨ino, hino, -⟩ := hc.linked.back (Set.mem_univ _) hopen
    dsimp only
    rw [shareInode, exec_get_bind, hino]
    by_cases hcount : ino.openCount.toNat + 1 < 2 ^ 32
    · refine .inl ⟨⟨ino, rfl, hcount⟩, id,
        updateInode L id fun ino => { ino with openCount := ino.openCount + 1 },
        { ino with openCount := ino.openCount + 1 }, ?_, rfl, ?_, ?_⟩
      · dsimp only
        rw [if_pos hcount]
        rfl
      · exact (get_update ..).trans (by rw [if_pos rfl, hino]; rfl)
      · rw [← hc.counted.count hino]
        exact Nat.mod_eq_of_lt hcount
    · refine .inr ⟨?_, overflow, L, ?_, refl_of (Steps True env Set.univ) L⟩
      · rintro ⟨ino', heq, h⟩
        exact hcount (Option.some.inj heq ▸ h)
      · dsimp only
        rw [if_neg hcount]
        rfl
  | none =>
    have hnew : ∀ (ino : Inode D), (L.inodes.insert L.nextInode ino).get L.nextInode = some ino :=
      fun _ => (get_insert ..).trans (if_pos rfl)
    have hone : (1 : UInt32).toNat = handleCount L L.nextInode + 1 := by
      rw [hc.counted.count_next]
      rfl
    have hstay := refl_of (Steps True env Set.univ) L
    dsimp only
    rw [exec_lift_bind, fileSlot]
    rcases hslot : slot L ns path with _ | f
    · dsimp only
      rw [if_neg (by decide)]
      by_cases hparent : parentExists L ns path = true
      swap
      · exact .inr ⟨fun h => hparent h.2.1, noParent path, L, by rw [if_pos hparent]; rfl, hstay⟩
      rw [if_neg (not_not.mpr hparent), exec_lift_bind]
      rcases created with e | ⟨⟩
      · exact .inr ⟨fun h => by simp at h, e, L, rfl, hstay⟩
      dsimp only
      rw [exec_bind_of_ok (exec_storeOnHeap []), exec_bind, exec_linkInode]
      by_cases hroom : L.nextInode.toNat + 1 < 2 ^ 64
      · refine .inl ⟨⟨hroom, hparent, rfl⟩, L.nextInode, setSlot (withInode
          { L with heap := L.heap.stored env.toEnv [] } ns path (env.contentAddress []) 0
            defaultFileMode) ns path (.file ⟨env.contentAddress [], defaultFileMode⟩), _, ?_, rfl,
          hnew _, hone⟩
        rw [if_pos hroom]
        rfl
      · refine .inr ⟨fun h => hroom h.1, overflow, _, by rw [if_neg hroom], steps_of_act fun hi => ?_⟩
        exact .grow _ fun g => (fills_stored hd (hi g).heap (by decide)).toExtends
    · cases f with
      | file f =>
        dsimp only
        rw [exec_lift_bind]
        rcases hsize : contentSize L.heap f.contentAddr with e | size
        · exact .inr ⟨fun h => by simp at h, e, L, rfl, hstay⟩
        dsimp only
        rw [exec_linkInode]
        by_cases hroom : L.nextInode.toNat + 1 < 2 ^ 64
        · exact .inl ⟨⟨hroom, size, rfl⟩, L.nextInode, _, _, if_pos hroom, rfl, hnew _, hone⟩
        · exact .inr ⟨fun h => hroom h.1, overflow, L, if_neg hroom, hstay⟩
      | _ => exact .inr ⟨fun h => h.2, _, L, rfl, hstay⟩

theorem Opens.created_of_absent {p : Path} (h : Opens env L ns created path)
    (hp : normalizePath path = .ok p) (hpath : L.pathToInode.get (toLex (ns, p)) = none)
    (hslot : slot L ns p = none) : created = .ok () := by
  obtain ⟨q, hq, -, hopen⟩ := h
  obtain rfl : p = q := Except.ok.inj (hp.symm.trans hq)
  unfold Openable at hopen
  rw [hpath] at hopen
  dsimp only at hopen
  rw [hslot] at hopen
  exact hopen.2.2

variable (ns created) in
theorem Consistent.fileOpen (hd : Digests env) (hc : Consistent env L)
    (hroom : L.nextHandle.toNat + 1 < 2 ^ 64) (path : Path) (mode : OpenMode) :
    Consistent env (exec (fileOpenWith env ns created (.ok ()) path mode) L).2 :=
  hc.of_steps (steps_fileOpen (fun _ => hd) (Set.mem_univ _) hroom hc.linked.inode_ne_none created
    path mode)

variable (ns created) in
/-- **An opening whose put fails** is harmless exactly if it fails before that. -/
theorem Consistent.unstored (hd : Digests env) (hc : Consistent env L) (path : Path) (e : LoomError) :
    (Opens env L ns created path ∧
      ¬ Sound env (exec (fileOpenWith env ns created (.error e) path .write) L).2) ∨
    ¬ Opens env L ns created path ∧
      Consistent env (exec (fileOpenWith env ns created (.error e) path .write) L).2 := by
  unfold Opens fileOpenWith
  rw [exec_lift_bind]
  rcases normalizePath path with e' | p
  · exact .inr ⟨by simp, hc⟩
  dsimp only
  rw [exec_get_bind, exec_lift_bind]
  rcases hchecks : openChecks env ns L p .write with e' | ⟨⟩
  · refine .inr ⟨?_, hc⟩
    rintro ⟨q, hq, h, -⟩
    cases hq
    exact absurd (hchecks.symm.trans h) nofun
  obtain ⟨hopen, id, L₁, ino, hex, hhandles, hino, hcount⟩ | ⟨hopen, e', L₁, hex, hsteps⟩ :=
    openInode_spec ns created hd hc p
  · refine .inl ⟨⟨p, rfl, hchecks, hopen⟩, fun hs => ?_⟩
    dsimp only at hs
    rw [exec_bind_of_ok hex] at hs
    have hsame := hs.counted id ino hino
    change _ = L₁.handles.count _ at hsame
    rw [hhandles, hcount, handleCount] at hsame
    omega
  · refine .inr ⟨?_, ?_⟩
    · rintro ⟨q, hq, -, h⟩
      cases hq
      exact hopen h
    · dsimp only
      rw [exec_bind_of_error hex]
      exact hc.of_steps hsteps

/-! ## Soundness along a run -/

theorem Always.sound {calls : List (Call D)} (h : Always env L calls) : Sound env L := by
  cases calls with
  | nil => exact h
  | cons c calls => exact h.1

theorem Always.sound_foldl {calls : List (Call D)} (h : Always env L calls) :
    Sound env (calls.foldl (Call.after env) L) := by
  induction calls generalizing L with
  | nil => exact h
  | cons c calls ih => exact ih h.2

/-- **One call**: it keeps open files right exactly if it keeps those that are open and no put fails
after it counted a handle. -/
theorem Consistent.after_iff (hd : Digests env) (hc : Consistent env L) {c : Call D}
    (hsized : c.op.Sized)
    (hroom : ∀ path mode, c.op = .fileOpen path mode → L.nextHandle.toNat + 1 < 2 ^ 64) :
    (Sound env (c.after env L) ↔
      (∀ w, c.op.tree env L c.ns = some w → Holding L c.ns w) ∧ c.Emptied env L) ∧
    (Sound env (c.after env L) → Consistent env (c.after env L)) := by
  obtain ⟨ns, op, created, emptied⟩ := c
  by_cases hopen : ∃ path mode, op = .fileOpen path mode
  · obtain ⟨path, mode, rfl⟩ := hopen
    have hkept := fun created => hc.fileOpen ns created hd (hroom path mode rfl)
      path mode
    have htree : ∀ w, (Op.fileOpen (D := D) path mode).tree env L ns = some w → Holding L ns w :=
      nofun
    have hafter : ∀ {L'}, Consistent env L' → Sound env L' → Consistent env L' := fun h _ => h
    cases mode with
    | write =>
      rcases emptied with e | ⟨⟩
      · obtain ⟨ho, hno⟩ | ⟨ho, hyes⟩ := hc.unstored ns created hd path e
        · exact ⟨⟨fun h => absurd h hno, fun h => absurd ho (h.2.resolve_left nofun)⟩,
            fun h => absurd h hno⟩
        · exact ⟨⟨fun _ => ⟨htree, .inr ho⟩, fun _ => hyes.sound hd⟩, hafter hyes⟩
      · exact ⟨⟨fun _ => ⟨htree, .inl rfl⟩, fun _ => (hkept created).sound hd⟩, hafter (hkept created)⟩
    | _ => exact ⟨⟨fun _ => ⟨htree, trivial⟩, fun _ => (hkept created).sound hd⟩, hafter (hkept created)⟩
  have hafter : Call.after env L ⟨ns, op, created, emptied⟩ = (exec (op.run env ns) L).2 := by
    cases op with
    | fileOpen path mode => exact absurd ⟨path, mode, rfl⟩ hopen
    | _ => rfl
  have hemptied : Call.Emptied env L ⟨ns, op, created, emptied⟩ := by
    cases op with
    | fileOpen path mode => exact absurd ⟨path, mode, rfl⟩ hopen
    | _ => trivial
  rw [hafter]
  by_cases hop : op.IsCheckout
  · obtain ⟨hiff, hcons⟩ := hc.checkout_iff ns hd hop
    exact ⟨hiff.trans ⟨fun h => ⟨h, hemptied⟩, And.left⟩, hcons⟩
  · have hkept := hc.step_steps ns hd hop hsized hroom
    refine ⟨⟨fun _ => ⟨fun w hw => ?_, hemptied⟩, fun _ => hkept.sound hd⟩, fun _ => hkept⟩
    rw [Op.tree_eq_none hop] at hw
    cases hw

/-- **Along a run, open files are sound exactly if every checkout keeps those that are open** and no
put fails after a handle was counted. -/
theorem always_iff (hd : Digests env) {calls : List (Call D)} (hc : Consistent env L)
    (hf : Fits env L calls) :
    Always env L calls ↔ AllHolding env L calls ∧ AllEmptied env L calls := by
  induction calls generalizing L with
  | nil => exact ⟨fun _ => ⟨trivial, trivial⟩, fun _ => hc.sound hd⟩
  | cons c calls ih =>
    obtain ⟨hsized, hroom, hrest⟩ := hf
    obtain ⟨hiff, hcons⟩ := hc.after_iff hd hsized hroom
    constructor
    · rintro ⟨-, h⟩
      obtain ⟨hholding, hemptied⟩ := hiff.mp h.sound
      obtain ⟨hall, hall'⟩ := (ih (hcons h.sound) hrest).mp h
      exact ⟨⟨hholding, hall⟩, hemptied, hall'⟩
    · rintro ⟨⟨hholding, hall⟩, hemptied, hall'⟩
      have hs := hiff.mpr ⟨hholding, hemptied⟩
      exact ⟨hc.sound hd, (ih (hcons hs) hrest).mpr ⟨hall, hall'⟩⟩

end

/-! ## Samples -/

namespace Sample

open Vcs.Sample (cdcEnv ns storeCommit loom)

def filesEnv : Env freeHash := ⟨cdcEnv, fun _ _ _ => .ok (), fun _ _ => .ok (), fun _ _ => .ok ()⟩

theorem digests_filesEnv : Digests filesEnv := by
  refine ⟨freeHash_injective, fun a b h => ?_, rfl⟩
  injection freeHash_injective h with hobj
  injection hobj

def empty : Loom freeHash := loom (do
  let base ← storeCommit [] [] []
  return [("main", base)])

theorem consistent_empty : Consistent filesEnv empty := by
  have hinodes : empty.inodes = SortedMap.empty := by decide +kernel
  have hhandles : empty.handles = SortedMap.empty := by decide +kernel
  have hpaths : empty.pathToInode = SortedMap.empty := by decide +kernel
  have hcontent : empty.heap.content = SortedMap.empty := by decide +kernel
  refine ⟨⟨?_, ?_, ?_⟩, ⟨?_, ?_, ?_, ?_⟩, fun addr obj => ?_, ?_⟩
  all_goals simp [hinodes, hhandles, hpaths, hcontent]

/-- A call in a store that takes every object. -/
def call (op : Op FreeDigest) : Call FreeDigest := ⟨ns, op, .ok (), .ok ()⟩

/-- Write a file and open it. -/
def opened : List (Call FreeDigest) :=
  [call (.writeFile "a".toList [1] defaultFileMode), call (.fileOpen "a".toList .readWrite)]

theorem fits_opened {calls : List (Call FreeDigest)}
    (h : Fits filesEnv (opened.foldl (Call.after filesEnv) empty) calls) :
    Fits filesEnv empty (opened ++ calls) :=
  ⟨Nat.one_lt_two_pow (by decide), nofun, trivial, fun _ _ _ => by decide +kernel, h⟩

/-- Go on to write through the handle and restore paths that are not open. -/
def wrote : List (Call FreeDigest) :=
  opened ++ [call (.fileWrite 1 [2, 3]), call (.restorePath "main".toList "b".toList)]

/-- Create a file in a store that takes no object. -/
def unstored : Call FreeDigest :=
  ⟨ns, .fileOpen "b".toList .write, .error (.corrupt "read-only"), .error (.corrupt "read-only")⟩

theorem emptied_unstored : unstored.Emptied filesEnv (wrote.foldl (Call.after filesEnv) empty) :=
  .inr fun h => absurd (h.created_of_absent (p := "b".toList) (by decide +kernel) (by decide +kernel)
    (by decide +kernel)) nofun

theorem always_kept : Always filesEnv empty (wrote ++ [unstored]) := by
  have hfits : Fits filesEnv empty (wrote ++ [unstored]) :=
    fits_opened ⟨trivial, nofun, trivial, nofun, trivial, fun _ _ _ => by decide +kernel, trivial⟩
  exact (always_iff digests_filesEnv consistent_empty hfits).mpr
    ⟨by decide +kernel, trivial, trivial, trivial, trivial, emptied_unstored, trivial⟩

/-- Go on to switch to the branch without the file. -/
def parting : List (Call FreeDigest) := opened ++ [call (.checkoutBranch "main".toList)]

/-- **A checkout parts an open file from its path**: the inode stays linked to a path that is gone. -/
theorem checkout_parts : Consistent filesEnv empty ∧ Fits filesEnv empty parting ∧
    ¬ Always filesEnv empty parting := by
  refine ⟨consistent_empty, fits_opened ⟨trivial, nofun, trivial⟩, fun h => ?_⟩
  have hlinked : ∀ e ∈ (parting.foldl (Call.after filesEnv) empty).inodes.entries, ∀ p ∈ e.2.path,
      slot (parting.foldl (Call.after filesEnv) empty) e.2.ns p =
        some (.file ⟨e.2.contentAddr, e.2.mode⟩) :=
    fun e he p hp => h.sound_foldl.linked e.1 e.2 p (get_eq_some.mpr he) hp
  revert hlinked
  decide +kernel

end Sample

end UldrenLoom.Fs
