import UldrenLoom.Vcs.Registry
import UldrenLoom.Vcs.Tree

/-!
# The engine state

A structured facet reads and writes objects and content only, so that its mergers are effects on a
heap. The access decisions depend on the identities and grants, which no operation here changes.
-/

namespace UldrenLoom.Vcs

open ByteString Effect

/-- The rights that access is granted for. -/
inductive AclRight where
  | read
  | write
  | advance
  | merge
  | execute
  | admin
deriving Repr, DecidableEq

/-- How hard the store should compress. -/
inductive CompressionHint where
  | none
  | fast
  | small
deriving Repr, DecidableEq

/-- How a file handle was opened. -/
inductive OpenMode where
  | read
  | write
  | readWrite
  | append
deriving Repr, DecidableEq

variable {D : Type}

/-- An open file, shared by all handles on it. -/
structure Inode (D : Type) where
  ns : WorkspaceId
  path : Option Path
  contentAddr : D
  size : UInt64
  mode : UInt32
  openCount : UInt32
deriving Repr, DecidableEq

/-- A handle on an open file. -/
structure OpenHandle where
  inode : UInt64
  offset : UInt64
  mode : OpenMode
deriving Repr, DecidableEq

/-- An unresolved path of a merge, with its slots. -/
structure MergeConflict (D : Type) where
  path : Path
  base : Option (StagedEntry D)
  ours : Option (StagedEntry D)
  theirs : Option (StagedEntry D)
deriving Repr, DecidableEq

/-- A merge that stopped at conflicts. -/
structure MergeInProgress (D : Type) where
  otherParent : D
  ourHead : D
  message : String
  conflicts : List (MergeConflict D)
  preWork : WorkTree D
  preDirs : DirSet
deriving DecidableEq

/-- The policy of a protected ref. -/
structure ProtectedRefPolicy where
  fastForwardOnly : Bool
  signedCommitsRequired : Bool
  signedRefAdvanceRequired : Bool
  requiredReviewCount : UInt32
  retentionLock : Bool
  governanceLock : Bool
deriving Repr, DecidableEq

variable [LinearOrder D]

/-- The stored objects, and the object of every content address. -/
structure Heap (hash : Stored D → D) where
  store : ContentStore hash
  content : SortedMap D D

/-- The engine. -/
structure Loom (hash : Stored D → D) where
  heap : Heap hash
  registry : Registry D
  lazyStateSections : Option (List (TreeEntry D))
  work : SortedMap WorkspaceId (WorkTree D)
  dirs : SortedMap WorkspaceId DirSet
  compression : SortedMap WorkspaceId CompressionHint
  consumerOffsets : SortedMap (WorkspaceId ×ₗ Path ×ₗ Path) UInt64
  streamLowWaterMarks : SortedMap (WorkspaceId ×ₗ Path) UInt64
  mergeState : SortedMap WorkspaceId (MergeInProgress D)
  index : SortedMap WorkspaceId (WorkTree D)
  inodes : SortedMap UInt64 (Inode D)
  handles : SortedMap UInt64 OpenHandle
  pathToInode : SortedMap (WorkspaceId ×ₗ Path) UInt64
  nextInode : UInt64
  nextHandle : UInt64
  protectedRefs : SortedMap (WorkspaceId ×ₗ Path) ProtectedRefPolicy

variable {hash : Stored D → D}

/-- One heap holds all objects that another holds. -/
instance : Preorder (Heap hash) := Preorder.lift Heap.store

/-- What the documents of a workspace are written out to. -/
structure Staging (hash : Stored D → D) where
  heap : Heap hash
  work : WorkTree D
  dirs : DirSet
  inodes : SortedMap UInt64 (Inode D)
  pathToInode : SortedMap (WorkspaceId ×ₗ Path) UInt64

instance : Preorder (Staging hash) := Preorder.lift Staging.heap

/-- What the engine is run with. Nothing that is plugged in drops objects. -/
structure Env (hash : Stored D → D) where
  contentAddress : Bytes → D
  chunk : Bytes → List Bytes
  isBoundary : Bytes → ℕ → Bool
  parseRevDigest : Path → Option D
  authorize : WorkspaceId → AclRight → Result Unit
  authorizeRef : WorkspaceId → Path → AclRight → Result Unit
  /-- Merge the rows of two tables. -/
  rowMergeTable : (base : Option D) → (ours theirs : D) → (cellLevel : Bool) →
    Update (Heap hash) (Option D)
  /-- Merge the entries of two document collections. -/
  mergeDocumentRoots : WorkspaceId → (base : Option D) → (ours theirs : D) →
    Update (Heap hash) (Option D)
  /-- Merge the slots of a vector entry. -/
  vectorEntryMerge : WorkspaceId → Path → (base ours theirs : Option (StagedEntry D)) →
    Update (Heap hash) (Option (StagedEntry D))
  /-- Merge a search collection and put it into the merged tree. -/
  searchCollectionMerge : WorkspaceId → Path → (base ours theirs merged : WorkTree D) →
    Update (Heap hash) (Option (WorkTree D))
  /-- Write the current documents of a workspace into its tree. -/
  materializeDocuments : WorkspaceId → Update (Staging hash) Unit
  rowMergeTable_le : ∀ base ours theirs cellLevel,
    Keeps (· ≤ ·) (rowMergeTable base ours theirs cellLevel)
  mergeDocumentRoots_le : ∀ ns base ours theirs,
    Keeps (· ≤ ·) (mergeDocumentRoots ns base ours theirs)
  vectorEntryMerge_le : ∀ ns path base ours theirs,
    Keeps (· ≤ ·) (vectorEntryMerge ns path base ours theirs)
  searchCollectionMerge_le : ∀ ns path base ours theirs merged,
    Keeps (· ≤ ·) (searchCollectionMerge ns path base ours theirs merged)
  materializeDocuments_le : ∀ ns, Keeps (· ≤ ·) (materializeDocuments ns)

/-- An environment without structured facets, where everything is granted and nothing is sharded. -/
def Env.plain (contentAddress : Bytes → D) : Env hash where
  contentAddress := contentAddress
  chunk bytes := [bytes]
  isBoundary _ _ := false
  parseRevDigest _ := none
  authorize _ _ := .ok ()
  authorizeRef _ _ _ := .ok ()
  rowMergeTable _ _ _ _ := pure none
  mergeDocumentRoots _ _ _ _ := pure none
  vectorEntryMerge _ _ _ _ _ := pure none
  searchCollectionMerge _ _ _ _ _ _ := pure none
  materializeDocuments _ := pure ()
  rowMergeTable_le _ _ _ _ := keeps_pure none
  mergeDocumentRoots_le _ _ _ _ := keeps_pure none
  vectorEntryMerge_le _ _ _ _ _ := keeps_pure none
  searchCollectionMerge_le _ _ _ _ _ _ := keeps_pure none
  materializeDocuments_le _ := keeps_pure ()

namespace Loom

def new : Loom hash where
  heap := ⟨ContentStore.empty, SortedMap.empty⟩
  registry := Registry.new
  lazyStateSections := none
  work := SortedMap.empty
  dirs := SortedMap.empty
  compression := SortedMap.empty
  consumerOffsets := SortedMap.empty
  streamLowWaterMarks := SortedMap.empty
  mergeState := SortedMap.empty
  index := SortedMap.empty
  inodes := SortedMap.empty
  handles := SortedMap.empty
  pathToInode := SortedMap.empty
  nextInode := 1
  nextHandle := 1
  protectedRefs := SortedMap.empty

variable (L : Loom hash) (ns : WorkspaceId)

def workOf : WorkTree D := (L.work.get ns).getD SortedMap.empty

def dirsOf : DirSet := (L.dirs.get ns).getD SortedSet.empty

def indexOf : WorkTree D := (L.index.get ns).getD SortedMap.empty

/-- The part of the state that the documents of a workspace are written to. -/
def staging : Staging hash :=
  ⟨L.heap, L.workOf ns, L.dirsOf ns, L.inodes, L.pathToInode⟩

def setStaging (L : Loom hash) (g : Staging hash) : Loom hash :=
  { L with
    heap := g.heap
    work := L.work.insert ns g.work
    dirs := L.dirs.insert ns g.dirs
    inodes := g.inodes
    pathToInode := g.pathToInode }

@[simp] theorem workOf_setStaging (L : Loom hash) (g : Staging hash) :
    (L.setStaging ns g).workOf ns = g.work := by simp [workOf, setStaging]

@[simp] theorem dirsOf_setStaging (L : Loom hash) (g : Staging hash) :
    (L.setStaging ns g).dirsOf ns = g.dirs := by simp [dirsOf, setStaging]

def onHeap {α : Type} (x : Update (Heap hash) α) : Update (Loom hash) α :=
  zoom Loom.heap (fun L h => { L with heap := h }) x

def onStore {α : Type} (x : Update (ContentStore hash) α) : Update (Loom hash) α :=
  zoom (·.heap.store) (fun L s => { L with heap := { L.heap with store := s } }) x

@[simp] theorem exec_onHeap {α : Type} (x : Update (Heap hash) α) (L : Loom hash) :
    exec (onHeap x) L = ((exec x L.heap).1, { L with heap := (exec x L.heap).2 }) := rfl

@[simp] theorem exec_onStore {α : Type} (x : Update (ContentStore hash) α)
    (L : Loom hash) : exec (onStore x) L = ((exec x L.heap.store).1,
      { L with heap := { L.heap with store := (exec x L.heap.store).2 } }) := rfl

end Loom

end UldrenLoom.Vcs
