import UldrenLoom.Vcs.Replay
import UldrenLoom.Vcs.State

/-!
# Commits, checkouts and branches

* **`checkout_commit`**: checking out a commit brings back what was committed.
-/

namespace UldrenLoom.Vcs

open ByteString Fallible Effect

variable {D : Type} [LinearOrder D] [ToString D] {hash : Stored D → D}

namespace Registry

/-- Change the branches and the current branch of a workspace. -/
def editRecord (reg : Registry D) (id : WorkspaceId)
    (f : Record D → Result (SortedMap Path D × Path)) : Result (Registry D) :=
  match h : reg.byId.get id with
  | none => .error (.notFound ("workspace " ++ toString id))
  | some r => do
    let (branches, head) ← f r
    .ok (reg.setRecord id { r with branches := branches, head := head } ⟨r, h, rfl⟩)

def branchCreate (reg : Registry D) (id : WorkspaceId) (name : Path) (tip : D) :
    Result (Registry D) := do
  validateRefName "branch" name
  reg.editRecord id fun r =>
    if (r.branches.get name).isSome then
      .error ⟨.alreadyExists, "branch " ++ name.quote ++ " already exists"⟩
    else .ok (r.branches.insert name tip, r.head)

def setHead (reg : Registry D) (id : WorkspaceId) (branch : Path) : Result (Registry D) := do
  validateRefName "branch" branch
  reg.editRecord id fun r =>
    if branch ≠ defaultBranch ∧ (r.branches.get branch).isNone then
      .error (.notFound ("branch " ++ branch.quote))
    else .ok (r.branches, branch)

end Registry

namespace Loom

def onRegistry (f : Registry D → Result (Registry D)) : Update (Loom hash) Unit := do
  let L ← get
  let registry ← liftM (f L.registry)
  modify fun L => { L with registry := registry }

variable [DigestCode D] (env : Env hash) (faults : D → Option LoomError) (ns : WorkspaceId)

def commitFiles (filesOf : Loom hash → WorkTree D) (author message : String) (timestampMs : UInt64) :
    Update (Loom hash) (D × WorkTree D) := do
  ensureFullStateLoaded faults
  let head ← liftM ((← get).registry.headBranch ns)
  liftM (env.authorizeRef ns (branchRef head) .write)
  liftM (env.authorizeRef ns (branchRef head) .advance)
  let parent ← liftM ((← get).registry.branchTip ns head)
  zoom (staging · ns) (setStaging ns) (env.materializeDocuments ns)
  let L ← get
  liftM (validateVcsNamespacePreflight (filesOf L) (L.dirsOf ns))
  let root ← onStore (buildSubtree env.isBoundary (filesOf L) (L.dirsOf ns) [])
  let digest ← onStore (putObject (.commit ⟨root, parent.toList, author, timestampMs, message, []⟩))
  liftM (authorizeBranchUpdate env (← get) ns (branchRef head) parent digest)
  match parent with
  | none => onRegistry (·.branchCreate ns head digest)
  | some tip => updateBranch ns head (some tip) digest
  return (digest, filesOf L)

/-- Commit the working tree, which then is the index too. -/
def commit (author message : String) (timestampMs : UInt64) : Update (Loom hash) D := do
  let (digest, files) ← commitFiles env faults ns (·.workOf ns) author message timestampMs
  modify fun L => { L with index := L.index.insert ns files }
  return digest

def commitStaged (author message : String) (timestampMs : UInt64) : Update (Loom hash) D := do
  let (digest, _) ← commitFiles env faults ns (·.indexOf ns) author message timestampMs
  return digest

def checkoutBranch (branch : Path) : Update (Loom hash) Unit := do
  liftM (env.authorizeRef ns (branchRef branch) .read)
  liftM (env.authorizeRef ns (branchRef branch) .write)
  onRegistry (·.setHead ns branch)
  match ← liftM ((← get).registry.branchTip ns branch) with
  | some tip => checkoutCommit env ns tip
  | none => modify fun L => { L with
      work := L.work.insert ns .empty
      index := L.index.insert ns .empty
      dirs := L.dirs.insert ns .empty }

def branch (name : Path) : Update (Loom hash) Unit := do
  liftM (env.authorizeRef ns (branchRef name) .advance)
  let head ← liftM ((← get).registry.headBranch ns)
  match ← liftM ((← get).registry.branchTip ns head) with
  | none => throw (.notFound "no commit to branch from")
  | some tip => do
    liftM (evaluateProtectedRefUpdate (← get) ns (branchRef name) none (some tip))
    onRegistry (·.branchCreate ns name tip)

end Loom

/-- How a conflict is settled. -/
inductive ConflictResolution where
  | ours
  | theirs
  | working
deriving Repr, DecidableEq

namespace Loom

variable (env : Env hash) (ns : WorkspaceId)

def mergeResolve (path : Path) (resolution : ConflictResolution) : Update (Loom hash) Unit := do
  liftM (env.authorize ns .merge)
  let path ← liftM (normalizePath path)
  let L ← get
  match L.mergeState.get ns with
  | none => throw (.invalid "no merge in progress")
  | some m =>
    match m.conflicts.find? (·.path = path) with
    | none => throw (.invalid (path.quote ++ " is not an unresolved conflict"))
    | some c =>
      let chosen := match resolution with
        | .ours => c.ours
        | .theirs => c.theirs
        | .working => (L.workOf ns).get path
      modify fun L => { L with
        mergeState := L.mergeState.insert ns
          { m with conflicts := m.conflicts.eraseP (·.path = path) }
        work := L.work.insert ns (setSlot (L.workOf ns) path chosen) }

/-- Finish a merge whose conflicts are settled, on the branch that is current now. -/
def mergeContinue (author : String) (timestampMs : UInt64) : Update (Loom hash) D := do
  liftM (env.authorize ns .merge)
  let L ← get
  match L.mergeState.get ns with
  | none => throw (.invalid "no merge in progress")
  | some m =>
    if m.conflicts ≠ [] then
      throw ⟨.conflict, "unresolved merge conflicts: " ++
        ", ".intercalate (m.conflicts.map (String.ofList ·.path))⟩
    else do
      let head ← liftM (L.registry.headBranch ns)
      let root ← snapshotTree env ns
      let digest ← onStore (putObject (.commit
        ⟨root, [m.ourHead, m.otherParent], author, timestampMs, m.message, []⟩))
      advanceBranch env ns head (some m.ourHead) digest
      modify fun L => { L with mergeState := L.mergeState.erase ns }
      return digest

/-! ## Back to a commit -/

section Restore

variable [DigestCode D] {env : Env hash} {faults : D → Option LoomError} {ns : WorkspaceId}
  {author message : String} {timestampMs : UInt64} {L L' M : Loom hash} {d : D}

/-- A commit has the tree of the working tree. -/
theorem commit_represents (hinj : Function.Injective hash)
    (h : exec (commit env faults ns author message timestampMs) L = (.ok d, L')) :
    ∃ c n, getCommit L'.heap.store d = .ok c ∧
      Represents env.isBoundary (L'.workOf ns) (L'.dirsOf ns) L'.heap.store n [] c.tree := by
  obtain ⟨⟨d, files⟩, L₂, hfiles, h2⟩ := exec_bind_eq_ok.mp h
  cases h2
  obtain ⟨⟨⟩, L₁, -, h⟩ := exec_bind_eq_ok.mp hfiles
  rw [exec_get_bind] at h
  obtain ⟨head, -, h⟩ := exec_lift_bind_eq_ok.mp h
  obtain ⟨⟨⟩, -, h⟩ := exec_lift_bind_eq_ok.mp h
  obtain ⟨⟨⟩, -, h⟩ := exec_lift_bind_eq_ok.mp h
  rw [exec_get_bind] at h
  obtain ⟨parent, -, h⟩ := exec_lift_bind_eq_ok.mp h
  obtain ⟨⟨⟩, L₃, -, h⟩ := exec_bind_eq_ok.mp h
  rw [exec_get_bind] at h
  obtain ⟨⟨⟩, -, h⟩ := exec_lift_bind_eq_ok.mp h
  obtain ⟨root, L₄, hroot, h⟩ := exec_bind_eq_ok.mp h
  -- the tree is stored, and then the commit that names it
  obtain ⟨s, -, ⟨-, root', hex, hrep⟩ | ⟨-, e, hex⟩⟩ :=
    buildSubtree_spec env.isBoundary (L₃.workOf ns) (L₃.dirsOf ns) hinj L₃.heap.store <;>
    rw [exec_onStore, hex] at hroot <;> cases hroot
  set c : Commit D := ⟨root, parent.toList, author, timestampMs, message, []⟩
  have hc : getCommit (s.put (.object (.commit c))) (hash (.object (.commit c))) = .ok c :=
    getCommit_eq_ok.mpr (getObject_put hinj s (Object.decode_commit c))
  have hrep := hrep.mono (ContentStore.le_put s (.object (.commit c)))
  obtain ⟨d', L₄, hput, h⟩ := exec_bind_eq_ok.mp h
  rw [exec_get_bind] at h
  obtain ⟨⟨⟩, -, h⟩ := exec_lift_bind_eq_ok.mp h
  obtain ⟨f, h⟩ : ∃ f, exec (onRegistry f >>= fun _ => pure (d', L₃.workOf ns)) L₄ =
      (.ok (d, files), L₂) := by
    cases parent with
    | none => exact ⟨_, h⟩
    | some tip => exact ⟨(·.updateBranch ns head (some tip) d'), h⟩
  obtain ⟨⟨⟩, L₅, hmove, h⟩ := exec_bind_eq_ok.mp h
  cases h
  rw [onRegistry, exec_get_bind] at hmove
  obtain ⟨reg, -, hmove⟩ := exec_lift_bind_eq_ok.mp hmove
  cases hmove
  cases hput
  exact ⟨c, _, hc, hrep⟩

/-- **Checking out a commit brings back what was committed**, in any state that still has the
objects: the files, and the directories that they are in. It fails only if a directory has more
levels than are read. -/
theorem checkout_commit (hinj : Function.Injective hash)
    (h : exec (commit env faults ns author message timestampMs) L = (.ok d, L'))
    (hle : L'.heap.store ≤ M.heap.store) (hread : env.authorize ns .read = .ok ()) :
    ((∃ M', exec (checkoutCommit env ns d) M = (.ok (), M')) ↔
      Shallow env.isBoundary (L'.workOf ns) (L'.dirsOf ns)) ∧
    ∀ M', exec (checkoutCommit env ns d) M = (.ok (), M') →
      M'.workOf ns = L'.workOf ns ∧ M'.indexOf ns = L'.workOf ns ∧
        ∀ p, p ∈ M'.dirsOf ns ↔ Implied (L'.workOf ns) (L'.dirsOf ns) p := by
  obtain ⟨c, n, hc, hrep⟩ := commit_represents hinj h
  have hiff := flattenCommit_iff_shallow (getCommit_mono hle hc) (hrep.mono hle)
  rw [exec_checkoutCommit, hread]
  cases hflat : flattenCommit M.heap.store d with
  | error e =>
    rw [hflat] at hiff
    exact ⟨by simpa using hiff, by simp⟩
  | ok r =>
    have hsh := hiff.mp ⟨r, hflat⟩
    obtain ⟨dirs, hroot, hdirs⟩ := flatten_of_shallow (hrep.mono hle) hsh
    rw [flattenCommit, getCommit_mono hle hc, ok_bind, hroot] at hflat
    cases hflat
    refine ⟨iff_of_true ⟨_, rfl⟩ hsh, fun M' hM' => ?_⟩
    cases hM'
    simpa [workOf, indexOf, dirsOf] using hdirs

end Restore

/-- A commit of the files `a` and `d/b`. -/
def Sample.committed : Result FreeDigest × Loom freeHash :=
  exec (commit Vcs.Sample.plainEnv noFaults Vcs.Sample.ns "author" "message" 2) addingLoom

/-- A new engine over the store of the commit. -/
def Sample.fresh : Loom freeHash := { (Loom.new : Loom freeHash) with heap := committed.2.heap }

theorem Sample.checkout_commit_fresh : ∃ d M', committed.1 = .ok d ∧
    exec (checkoutCommit Vcs.Sample.plainEnv Vcs.Sample.ns d) fresh = (.ok (), M') ∧
    M'.workOf Vcs.Sample.ns =
      SortedMap.ofList [("a".toList, Vcs.Sample.file 1), ("d/b".toList, Vcs.Sample.file 2)] ∧
    "d".toList ∈ M'.dirsOf Vcs.Sample.ns := by
  have hok : committed.1 =
      .ok ((committed.2.registry.tip Vcs.Sample.ns "main".toList).getD []) := by decide +kernel
  have hwork : committed.2.workOf Vcs.Sample.ns = SortedMap.ofList [("a".toList, Vcs.Sample.file 1),
      ("d/b".toList, Vcs.Sample.file 2)] := by decide +kernel
  have hdirs : committed.2.dirsOf Vcs.Sample.ns = SortedSet.ofList ["d".toList] := by decide +kernel
  have h := (Prod.eta committed).symm
  rw [hok] at h
  have hle : committed.2.heap.store ≤ fresh.heap.store := by rw [fresh]
  obtain ⟨hiff, hrest⟩ := checkout_commit freeHash_injective h hle rfl
  obtain ⟨M', hM'⟩ := hiff.mpr fun pre _ => (nameDepth_single _).trans_le (Nat.zero_le _)
  obtain ⟨hfiles, -, himp⟩ := hrest M' hM'
  refine ⟨_, M', hok, hM', hfiles.trans hwork, (himp _).mpr (.inr ⟨?_, by decide, by decide⟩)⟩
  rw [hdirs]
  simp

end Loom

end UldrenLoom.Vcs
