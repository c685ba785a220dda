import UldrenLoom.Vcs.Engine

/-!
# Merging
-/

namespace UldrenLoom.Vcs

open ByteString Fallible Effect

/-! ## Three-way merge of trees -/

section ThreeWay

variable {D : Type} [DecidableEq D] (base ours theirs : WorkTree D)

/-- Both sides changed a path, and differently. -/
def Conflicting (path : Path) : Prop :=
  ours.get path ≠ theirs.get path ∧ base.get path ≠ ours.get path ∧ base.get path ≠ theirs.get path

instance (base ours theirs : WorkTree D) (path : Path) :
    Decidable (Conflicting base ours theirs path) := inferInstanceAs (Decidable (_ ∧ _))

def setSlot (tree : WorkTree D) (path : Path) : Option (StagedEntry D) → WorkTree D
  | some slot => tree.insert path slot
  | none => tree.erase path

/-- Merge one path: take a side that the other left unchanged. -/
def mergePath (acc : WorkTree D × List Path) (path : Path) : WorkTree D × List Path :=
  let b := base.get path
  let o := ours.get path
  let t := theirs.get path
  if o = t then acc
  else if b = o then (setSlot acc.1 path t, acc.2)
  else if b = t then acc
  else (acc.1, acc.2 ++ [path])

def mergedPaths (ours theirs : WorkTree D) : List Path :=
  (SortedSet.ofList (ours.keys ++ theirs.keys)).elems

/-- Merge two trees against a base, path by path. -/
def threeWayMergeFiles : WorkTree D × List Path :=
  (mergedPaths ours theirs).foldl (mergePath base ours theirs) (ours, [])

omit [DecidableEq D] in
@[simp] theorem get_setSlot (tree : WorkTree D) (p q : Path) (slot : Option (StagedEntry D)) :
    (setSlot tree p slot).get q = if p = q then slot else tree.get q := by
  cases slot <;> simp [setSlot]

omit [DecidableEq D] in
theorem mem_mergedPaths {ours theirs : WorkTree D} {p : Path} :
    p ∈ mergedPaths ours theirs ↔ ours.get p ≠ none ∨ theirs.get p ≠ none := by
  simp [mergedPaths, SortedMap.mem_keys]

theorem snd_mergePath (acc : WorkTree D × List Path) (p : Path) :
    (mergePath base ours theirs acc p).2 =
      if Conflicting base ours theirs p then acc.2 ++ [p] else acc.2 := by
  unfold mergePath Conflicting
  grind

theorem get_mergePath (acc : WorkTree D × List Path) (p q : Path) :
    ((mergePath base ours theirs acc p).1).get q =
      if p = q ∧ ours.get q ≠ theirs.get q ∧ base.get q = ours.get q then theirs.get q
      else acc.1.get q := by
  unfold mergePath
  grind [get_setSlot]

theorem conflicts_foldl (ps : List Path)
    (acc : WorkTree D × List Path) : (ps.foldl (mergePath base ours theirs) acc).2 =
      acc.2 ++ ps.filter (Conflicting base ours theirs ·) := by
  induction ps generalizing acc with
  | nil => simp
  | cons p ps ih =>
    rw [List.foldl_cons, ih, snd_mergePath, List.filter_cons]
    by_cases h : Conflicting base ours theirs p <;> simp [h]

theorem get_foldl_mergePath (ps : List Path) (acc : WorkTree D × List Path) (q : Path) :
    ((ps.foldl (mergePath base ours theirs) acc).1).get q =
      if q ∈ ps ∧ ours.get q ≠ theirs.get q ∧ base.get q = ours.get q then theirs.get q
      else acc.1.get q := by
  induction ps generalizing acc with
  | nil => simp
  | cons p ps ih =>
    rw [List.foldl_cons, ih, get_mergePath]
    grind

/-- **What the merged tree has at a path.** -/
theorem get_threeWayMergeFiles (q : Path) : ((threeWayMergeFiles base ours theirs).1).get q =
      if base.get q = ours.get q then theirs.get q else ours.get q := by
  rw [threeWayMergeFiles, get_foldl_mergePath]
  by_cases heq : ours.get q = theirs.get q
  · simp [heq]
  · have hmem : q ∈ mergedPaths ours theirs := by
      rw [mem_mergedPaths]
      by_contra h
      rw [not_or, not_not, not_not] at h
      exact heq (h.1.trans h.2.symm)
    simp [heq, hmem]

/-- **Which paths conflict.** -/
theorem conflicts_threeWayMergeFiles : (threeWayMergeFiles base ours theirs).2 =
      (mergedPaths ours theirs).filter (Conflicting base ours theirs ·) := by
  rw [threeWayMergeFiles, conflicts_foldl]
  rfl

end ThreeWay

variable {D : Type} [LinearOrder D] [ToString D] {hash : Stored D → D}

/-! ## Merge bases -/

section Bases

variable (s : ContentStore hash)

/-- The common ancestors of two commits that no other common ancestor descends from, ascending. -/
def mergeBaseSet (a b : D) : Result (List D) := do
  let aa ← ancestors s a
  let bb ← ancestors s b
  let common := aa.elems.filter (· ∈ bb)
  let dominated ← common.foldlM (fun dominated c => do
    let anc ← ancestors s c
    return dominated.insertAll (anc.elems.filter fun d => d ≠ c ∧ d ∈ common))
    (SortedSet.empty : SortedSet D)
  return common.filter (· ∉ dominated)

/-- The place of a slot in the order of slots: its kind, its digest, its mode. -/
def StagedEntry.rank : StagedEntry D → ℕ ×ₗ D ×ₗ ℕ
  | .file f => toLex (0, toLex (f.contentAddr, f.mode.toNat))
  | .table root => toLex (1, toLex (root, 0))
  | .stream root => toLex (2, toLex (root, 0))
  | .timeSeries root => toLex (3, toLex (root, 0))
  | .graph root => toLex (4, toLex (root, 0))
  | .ledger root => toLex (5, toLex (root, 0))
  | .columnar root => toLex (6, toLex (root, 0))
  | .document root => toLex (7, toLex (root, 0))

/-- The side a virtual base takes at a conflict: the least slot, or the only one. -/
def pickSlot : Option (StagedEntry D) → Option (StagedEntry D) → Option (StagedEntry D)
  | some o, some t => some (if o.rank ≤ t.rank then o else t)
  | some o, none => some o
  | none, t => t

/-- Fold bases into a virtual one, each merged onto those before it; `fuel` bounds the nesting. -/
def reduceBases : (fuel : ℕ) → (bases : List D) → Result (WorkTree D × DirSet)
  | 0, _ => .error (.corrupt "merge bases nested deeper than the history")
  | fuel + 1, bases =>
    match (SortedSet.ofList bases).elems with
    | [] => .ok (SortedMap.empty, SortedSet.empty)
    | first :: rest => do
      let start ← flattenCommit s first
      let acc ← rest.foldlM (fun (acc : (WorkTree D × DirSet) × List D) next => do
        let inner ← acc.2.foldlM (fun (inner : SortedSet D) f => do
          return inner.insertAll (← mergeBaseSet s f next)) SortedSet.empty
        let innerBase ← reduceBases fuel inner.elems
        let nextTree ← flattenCommit s next
        let (merged, conflicts) := threeWayMergeFiles innerBase.1 acc.1.1 nextTree.1
        let merged := conflicts.foldl (fun merged path =>
          setSlot merged path (pickSlot (acc.1.1.get path) (nextTree.1.get path))) merged
        return ((merged, acc.1.2.union nextTree.2), acc.2 ++ [next])) (start, [first])
      return acc.1

end Bases

/-! ## Structured slots -/

section Resolve

variable (env : Env hash) (ns : WorkspaceId) (base ours theirs : WorkTree D) (cellLevel : Bool)

def tryMergeTable (path : Path) (merged : WorkTree D) : Update (Heap hash) (Option (WorkTree D)) :=
  match ours.get path, theirs.get path with
  | some (.table o), some (.table t) => do
    let b := match base.get path with
      | some (.table b) => some b
      | _ => none
    let tree ← env.rowMergeTable b o t cellLevel
    return tree.map fun tree => merged.insert path (.table tree)
  | _, _ => pure none

/-- Merge a document collection on both sides by entries. -/
def tryMergeDocument (path : Path) (merged : WorkTree D) :
    Update (Heap hash) (Option (WorkTree D)) :=
  match ours.get path, theirs.get path with
  | some (.document o), some (.document t) => do
    let b := match base.get path with
      | some (.document b) => some b
      | _ => none
    let root ← env.mergeDocumentRoots ns b o t
    return root.map fun root => merged.insert path (.document root)
  | _, _ => pure none

def tryMergeVector (path : Path) (merged : WorkTree D) :
    Update (Heap hash) (Option (WorkTree D)) := do
  let slot ← env.vectorEntryMerge ns path (base.get path) (ours.get path) (theirs.get path)
  return slot.map (merged.insert path)

/-- Give a conflict to the mergers in turn; it stays unresolved if none takes it. -/
def resolveConflict (acc : WorkTree D × List Path) (path : Path) :
    Update (Heap hash) (WorkTree D × List Path) := do
  let merged ← firstSome
    [tryMergeTable env base ours theirs cellLevel path acc.1,
      tryMergeDocument env ns base ours theirs path acc.1,
      tryMergeVector env ns base ours theirs path acc.1,
      env.searchCollectionMerge ns path base ours theirs acc.1]
  match merged with
  | some merged => return (merged, acc.2)
  | none => return (acc.1, acc.2 ++ [path])

/-- The merged tree, and the paths left unresolved. -/
def resolveThreeWay : Update (Heap hash) (WorkTree D × List Path) :=
  (threeWayMergeFiles base ours theirs).2.foldlM (resolveConflict env ns base ours theirs cellLevel)
    ((threeWayMergeFiles base ours theirs).1, [])

omit [ToString D] in
theorem resolveThreeWay_le : Keeps (· ≤ ·) (resolveThreeWay env ns base ours theirs cellLevel) := by
  refine keeps_foldlM (fun acc path _ => ?_) _
  refine keeps_bind (keeps_firstSome ?_) fun r => ?_
  · simp only [List.mem_cons, List.not_mem_nil, or_false]
    rintro x (rfl | rfl | rfl | rfl)
    · unfold tryMergeTable
      split
      · exact keeps_bind (env.rowMergeTable_le _ _ _ _) fun _ => keeps_pure _
      · exact keeps_pure _
    · unfold tryMergeDocument
      split
      · exact keeps_bind (env.mergeDocumentRoots_le _ _ _ _) fun _ => keeps_pure _
      · exact keeps_pure _
    · exact keeps_bind (env.vectorEntryMerge_le _ _ _ _ _) fun _ => keeps_pure _
    · apply env.searchCollectionMerge_le
  · cases r <;> exact keeps_pure _

end Resolve

/-! ## Merging a branch -/

/-- The outcome of a merge. -/
inductive MergeOutcome (D : Type) where
  | upToDate
  | fastForward (tip : D)
  | merged (tip : D)
  | conflicts (paths : List Path)
deriving Repr, DecidableEq

/-- What a merge comes down to. -/
inductive MergePlan (D : Type) [LinearOrder D] where
  | upToDate
  | fastForward (head : Path) (ours theirs : D)
  | threeWay (head : Path) (ours theirs : D) (base : WorkTree D) (ourFiles theirFiles : WorkTree D)
      (dirs : DirSet)

namespace Loom

variable (env : Env hash) (ns : WorkspaceId) (fromBranch : Path)

/-- Check the rights to a merge and find the current branch and both tips. -/
def mergeTips (L : Loom hash) : Result (Path × D × D) :=
  if (L.mergeState.get ns).isSome then
    .error ⟨.conflict, "a merge is already in progress; resolve and continue it, or abort it first"⟩
  else do
    let head ← L.registry.headBranch ns
    env.authorizeRef ns (branchRef head) .merge
    env.authorizeRef ns (branchRef fromBranch) .read
    match ← L.registry.branchTip ns head with
    | none => .error (.notFound "current branch has no commits")
    | some ours =>
      match ← L.registry.branchTip ns fromBranch with
      | none => .error (.notFound ("branch " ++ fromBranch.quote))
      | some theirs => .ok (head, ours, theirs)

/-- Whether our commit contains theirs. -/
def contained (s : ContentStore hash) (ours theirs : D) : Result Bool :=
  if ours = theirs then .ok true else isAncestor s theirs ours

/-- The three trees of a merge of two commits, and the directories of both. -/
def threeWayPlan (s : ContentStore hash) (head : Path) (ours theirs : D) :
    Result (MergePlan D) := do
  let bases ← mergeBaseSet s ours theirs
  let base ← reduceBases s (s.size + 1) bases
  let our ← flattenCommit s ours
  let their ← flattenCommit s theirs
  .ok (.threeWay head ours theirs base.1 our.1 their.1 (our.2.union their.2))

/-- What a merge of two branches comes down to, before anything changes. -/
def planMerge (L : Loom hash) : Result (MergePlan D) := do
  let tips ← mergeTips env ns fromBranch L
  if ← contained L.heap.store tips.2.1 tips.2.2 then .ok .upToDate
  else if ← isAncestor L.heap.store tips.2.1 tips.2.2 then
    .ok (.fastForward tips.1 tips.2.1 tips.2.2)
  else threeWayPlan L.heap.store tips.1 tips.2.1 tips.2.2

/-- A text file with both sides of a conflict, or nothing for binary content. -/
def conflictMarkerBlob (h : Heap hash) (ours theirs : StagedFile D) : Result (Option Bytes) := do
  let ob ← loadContent h ours.contentAddr
  let tb ← loadContent h theirs.contentAddr
  let line (bs : Bytes) : Bytes := if bs.getLast? = some 10 then bs else bs ++ [10]
  if (strOfBytes? ob).isNone ∨ (strOfBytes? tb).isNone then return none
  else return some (strBytes "<<<<<<< ours\n" ++ line ob ++ strBytes "=======\n" ++ line tb ++
    strBytes ">>>>>>> theirs\n")

/-- Mark one conflict in the staged tree, where both sides are text files. -/
def markConflict (ours theirs : WorkTree D) (staged : WorkTree D) (path : Path) :
    Update (Heap hash) (WorkTree D) :=
  match ours.get path, theirs.get path with
  | some (.file o), some (.file t) => do
    match ← liftM (conflictMarkerBlob (← get) o t) with
    | some marker =>
      let addr ← storeContent env marker
      return staged.insert path (.file ⟨addr, o.mode⟩)
    | none => return staged
  | _, _ => pure staged

/-- Stage a merge with conflicts; the branch does not move. -/
def enterMergeConflictState (ours theirs : D) (merged : WorkTree D) (mergedDirs : DirSet)
    (base ourFiles theirFiles : WorkTree D) (unresolved : List Path) :
    Update (Loom hash) (MergeOutcome D) := do
  let L ← get
  let staged ← onHeap (unresolved.foldlM (markConflict env ourFiles theirFiles) merged)
  let conflicts := unresolved.map fun path =>
    (⟨path, base.get path, ourFiles.get path, theirFiles.get path⟩ : MergeConflict D)
  modify fun L' => { L' with
    work := L'.work.insert ns staged
    dirs := L'.dirs.insert ns mergedDirs
    mergeState := L'.mergeState.insert ns
      ⟨theirs, ours, "merge " ++ String.ofList fromBranch, conflicts, L.workOf ns, L.dirsOf ns⟩ }
  return .conflicts unresolved

variable (stored : Result Unit)

/-- Write out the documents of a workspace, check its tree and store it. `stored` is the outcome of
the puts: its error is that of the first one that fails. -/
def snapshotTreeWith : Update (Loom hash) D := do
  zoom (staging · ns) (setStaging ns) (env.materializeDocuments ns)
  let L ← get
  liftM (validateVcsNamespacePreflight (L.workOf ns) (L.dirsOf ns))
  liftM stored
  onStore (buildSubtree env.isBoundary (L.workOf ns) (L.dirsOf ns) [])

/-- Store the tree of a workspace, in a store that takes every object. -/
def snapshotTree : Update (Loom hash) D := snapshotTreeWith env ns (.ok ())

/-- Move a branch, if it may, and check out its new tip. -/
def advanceBranch (head : Path) (old : Option D) (new : D) : Update (Loom hash) Unit := do
  liftM (authorizeBranchUpdate env (← get) ns (branchRef head) old new)
  updateBranch ns head old new
  checkoutCommit env ns new

/-- Store the staged tree and a commit of it with both tips as parents, and move the branch there. -/
def commitMerge (head : Path) (ours theirs : D) (author : String)
    (timestampMs : UInt64) : Update (Loom hash) (MergeOutcome D) := do
  let root ← snapshotTreeWith env ns stored
  let digest ← onStore (putObject (.commit
    ⟨root, [ours, theirs], author, timestampMs, "merge " ++ String.ofList fromBranch, []⟩))
  advanceBranch env ns head (some ours) digest
  return .merged digest

/-- Merge a branch into the current one; `stored` is the outcome of the puts that follow the staging
of a merge without conflicts. -/
def mergeInnerWith (author : String) (timestampMs : UInt64)
    (cellLevel : Bool) : Update (Loom hash) (MergeOutcome D) := do
  match ← liftM (planMerge env ns fromBranch (← get)) with
  | .upToDate => return .upToDate
  | .fastForward head ours theirs =>
    advanceBranch env ns head (some ours) theirs
    return .fastForward theirs
  | .threeWay head ours theirs base ourFiles theirFiles dirs =>
    let (merged, unresolved) ← onHeap (resolveThreeWay env ns base ourFiles theirFiles cellLevel)
    if unresolved ≠ [] then
      enterMergeConflictState env ns fromBranch ours theirs merged dirs base ourFiles theirFiles
        unresolved
    else
      modify fun L => { L with work := L.work.insert ns merged, dirs := L.dirs.insert ns dirs }
      commitMerge env ns fromBranch stored head ours theirs author timestampMs

/-- Merge a branch into the current one, in a store that takes every object. -/
def mergeInner (author : String) (timestampMs : UInt64) (cellLevel : Bool) :
    Update (Loom hash) (MergeOutcome D) :=
  mergeInnerWith env ns fromBranch (.ok ()) author timestampMs cellLevel

/-- Merge a branch into the current one, tables by rows. -/
def merge (author : String) (timestampMs : UInt64) : Update (Loom hash) (MergeOutcome D) :=
  mergeInnerWith env ns fromBranch stored author timestampMs false

/-- Merge a branch into the current one, tables by cells. -/
def mergeCellLevel (author : String) (timestampMs : UInt64) : Update (Loom hash) (MergeOutcome D) :=
  mergeInnerWith env ns fromBranch stored author timestampMs true

end Loom

end UldrenLoom.Vcs
