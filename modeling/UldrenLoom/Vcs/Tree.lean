import UldrenLoom.Lib.Chunk
import UldrenLoom.Vcs.Object

/-!
# Directory trees

A working tree is a flat map from paths to slots. A commit stores it as nested tree objects, one for
every directory; a directory with many entries is sharded like a prolly tree.

`B name level` says whether a shard node ends after the name. The source bounds neither the nesting
of the directories it builds nor of those it reads. Here a build may nest as deep as the longest path
is long, and a read as deep as the store has objects: nothing deeper exists unless tree objects
contain each other.
-/

namespace UldrenLoom.Vcs

open ByteString Fallible Effect

/-- Directories with more entries than this are sharded. -/
def dirShardThreshold : ℕ := 256

/-- Maximum nesting of shard nodes accepted when reading a directory. -/
def maxShardDepth : ℕ := 64

def dirMode : UInt32 := 0o040000

/-- A file staged in the working tree. -/
structure StagedFile (D : Type) where
  contentAddr : D
  mode : UInt32
deriving Repr, DecidableEq

/-- One working-tree slot: a file, or the root of a structured facet. -/
inductive StagedEntry (D : Type) where
  | file (f : StagedFile D)
  | table (root : D)
  | stream (root : D)
  | timeSeries (root : D)
  | graph (root : D)
  | ledger (root : D)
  | columnar (root : D)
  | document (root : D)
deriving Repr, DecidableEq

/-- A working tree: a flat map from paths to slots. -/
abbrev WorkTree (D : Type) := SortedMap Path (StagedEntry D)

abbrev DirSet := SortedSet Path

variable {D : Type}

def StagedEntry.entry (name : Path) : StagedEntry D → TreeEntry D
  | .file f => ⟨name, .blob, f.contentAddr, f.mode⟩
  | .table root => ⟨name, .table, root, 0⟩
  | .stream root => ⟨name, .stream, root, 0⟩
  | .timeSeries root => ⟨name, .timeSeries, root, 0⟩
  | .graph root => ⟨name, .graph, root, 0⟩
  | .ledger root => ⟨name, .ledger, root, 0⟩
  | .columnar root => ⟨name, .columnar, root, 0⟩
  | .document root => ⟨name, .document, root, 0⟩

def TreeEntry.slot (e : TreeEntry D) : StagedEntry D :=
  match e.kind with
  | .table => .table e.target
  | .stream => .stream e.target
  | .timeSeries => .timeSeries e.target
  | .graph => .graph e.target
  | .ledger => .ledger e.target
  | .columnar => .columnar e.target
  | .document => .document e.target
  | _ => .file ⟨e.target, e.mode⟩

/-! ## Paths -/

def splitOnce : Path → Option (Path × Path)
  | [] => none
  | c :: p => if c = '/' then some ([], p) else (splitOnce p).map fun r => (c :: r.1, r.2)

def rsplitOnce : Path → Option (Path × Path)
  | [] => none
  | c :: p =>
    match rsplitOnce p with
    | some r => some (c :: r.1, r.2)
    | none => if c = '/' then some ([], p) else none

/-- The parents of a path, nearest first, at most `n` of them. -/
def ancestorsFrom : (n : ℕ) → Path → List Path
  | 0, _ => []
  | n + 1, cursor =>
    match rsplitOnce cursor with
    | some (parent, _) => if parent = [] then [] else parent :: ancestorsFrom n parent
    | none => []

def pathAncestors (path : Path) : List Path := ancestorsFrom path.length path

/-- Strip leading slashes; reject empty paths, trailing slashes and empty segments. -/
def normalizePath (path : Path) : Result Path :=
  let p := path.dropWhile (· = '/')
  if p = [] ∨ p.getLast? = some '/' ∨ ['/', '/'] <:+: p then
    .error (.invalid ("invalid path " ++ path.quote))
  else .ok p

/-! ## Sharded directories -/

section Build

variable [LinearOrder D] {hash : Stored D → D} (B : Bytes → ℕ → Bool)

def putObject (o : Object D) : Update (ContentStore hash) D := do
  modify (·.put (.object o))
  pure (hash (.object o))

/-- Store the tree of a run and return the shard entry that points at it. -/
def flushShardNode (run : List (TreeEntry D)) : Update (ContentStore hash) (TreeEntry D) := do
  let o ← liftM (Object.makeTree run)
  let node ← putObject o
  pure ⟨(run.getLast?.map TreeEntry.name).getD [], .treeShard, node, dirMode⟩

/-- Cut entries into runs at the boundaries of a level, storing a shard node for each. -/
def chunkEntries (level : ℕ) : (run entries : List (TreeEntry D)) →
    Update (ContentStore hash) (List (TreeEntry D))
  | run, [] => if run = [] then pure [] else return [← flushShardNode run]
  | run, entry :: rest =>
    if B entry.name.bytes level then do
      let e ← flushShardNode (run ++ [entry])
      return e :: (← chunkEntries level [] rest)
    else chunkEntries level (run ++ [entry]) rest

/-- The target of the last shard entry left. The source expects there to be one. -/
def shardRoot : List (TreeEntry D) → Update (ContentStore hash) D
  | [] => throw (.corrupt "a sharded directory has at least one shard node")
  | e :: _ => pure e.target

/-- Add interior levels until one shard entry is left. The source counts them upwards in eight bits;
here `left` are left. -/
def shardLevels : (left : ℕ) → List (TreeEntry D) → Update (ContentStore hash) D
  | 0, level =>
    if level.length ≤ 1 then shardRoot level
    else do
      let _ ← chunkEntries B 255 [] level
      throw (.corrupt "sharded directory too tall")
  | left + 1, level =>
    if level.length ≤ 1 then shardRoot level
    else do
      let parents ← chunkEntries B (254 - left) [] level
      shardLevels left parents

/-- Store the entries of a directory as a sharded tree. -/
def putShardedTree (entries : List (TreeEntry D)) : Update (ContentStore hash) D := do
  let _ ← liftM (Object.makeTree entries)
  let level ← chunkEntries B 0 [] (Object.sortEntries entries)
  shardLevels B 254 level

/-! ## Building -/

/-- An entry right below a prefix, by the rest of its path. -/
def fileChild (pre : Path) (e : Path × StagedEntry D) : Option (Path × StagedEntry D) :=
  match e.1.dropPrefix? pre with
  | none => none
  | some rest =>
    match splitOnce rest with
    | none => some (rest, e.2)
    | some _ => none

def fileChildren (files : WorkTree D) (pre : Path) : List (Path × StagedEntry D) :=
  files.entries.filterMap (fileChild pre)

/-- The first segment below a prefix of a file deeper in the tree. -/
def fileSegment (pre path : Path) : Option Path :=
  match path.dropPrefix? pre with
  | none => none
  | some rest => (splitOnce rest).map Prod.fst

def dirSegment (pre dir : Path) : Option Path :=
  match dir.dropPrefix? pre with
  | none => none
  | some rest => if rest = [] then none else some (((splitOnce rest).map Prod.fst).getD rest)

def dirChildren (files : WorkTree D) (dirs : DirSet) (pre : Path) : SortedSet Path :=
  (SortedSet.ofList (files.keys.filterMap (fileSegment pre))).insertAll
    (dirs.elems.filterMap (dirSegment pre))

/-- Store the entries of a directory, sharded if there are many. -/
def putDirectory (entries : List (TreeEntry D)) : Update (ContentStore hash) D := do
  if entries.length > dirShardThreshold then putShardedTree B entries
  else putObject (← liftM (Object.makeTree entries))

variable (files : WorkTree D) (dirs : DirSet)

/-- Store the tree below a prefix, nested at most `fuel` deep. -/
def buildLevels : (fuel : ℕ) → (pre : Path) → Update (ContentStore hash) D
  | 0, _ => throw (.corrupt "directories nested deeper than the longest path")
  | fuel + 1, pre => do
    let subs ← (dirChildren files dirs pre).elems.mapM fun seg => do
      let sub ← buildLevels fuel (pre ++ seg ++ ['/'])
      return (⟨seg, .tree, sub, dirMode⟩ : TreeEntry D)
    putDirectory B ((fileChildren files pre).map (fun e => e.2.entry e.1) ++ subs)

def longestPath : ℕ := ((files.keys ++ dirs.elems).map List.length).foldr max 0

/-- Store the tree of the files and directories below a prefix. -/
def buildSubtree (pre : Path) : Update (ContentStore hash) D :=
  buildLevels B files dirs (longestPath files dirs + 1) pre

/-! ## The depth of the shards -/

/-- How many interior levels names get, or one more than there may be. -/
def shardRounds : (left : ℕ) → List Path → ℕ
  | 0, names => if names.length ≤ 1 then 0 else 1
  | left + 1, names =>
    if names.length ≤ 1 then 0
    else shardRounds left (Chunk.cuts (fun n : Path => B n.bytes (254 - left)) names) + 1

/-- The names of the entries of a directory, ascending. -/
def entryNames (pre : Path) : List Path :=
  ((fileChildren files pre).map Prod.fst ++ (dirChildren files dirs pre).elems).insertionSort (· ≤ ·)

/-- How many levels of interior shard nodes entries of these names get. -/
def nameDepth (names : List Path) : ℕ :=
  if names.length > dirShardThreshold then
    shardRounds B 254 (Chunk.cuts (fun n : Path => B n.bytes 0) names)
  else 0

/-- How many levels of interior shard nodes a directory gets. -/
def shardDepth (pre : Path) : ℕ := nameDepth B (entryNames files dirs pre)

end Build

/-! ## Reading -/

section Read

variable [LinearOrder D] [ToString D] {hash : Stored D → D} (s : ContentStore hash)

/-- The entries of a directory, with `left` levels of shard nodes left to read. -/
def collectDirEntries : (left : ℕ) → D → Result (List (TreeEntry D))
  | 0, _ => .error (.corrupt "directory sharded deeper than the maximum")
  | left + 1, node => do
    match ← getObject s node with
    | .tree entries =>
      if entries.all (·.kind ≠ .treeShard) then .ok entries
      else
        concatMap (fun e =>
          if e.kind = .treeShard then collectDirEntries left e.target
          else .error (.corrupt "shard node mixes TreeShard and ordinary entries")) entries
    | _ => .error (.corrupt ("expected a Tree at " ++ toString node))

def treeEntries (dir : D) : Result (List (TreeEntry D)) :=
  collectDirEntries s (maxShardDepth + 1) dir

/-- Add the paths of a tree to a working tree and a set of directories. -/
def flattenTree : (fuel : ℕ) → (tree : D) → (pre : Path) → WorkTree D × DirSet →
    Result (WorkTree D × DirSet)
  | 0, _, _, _ => .error (.corrupt "tree objects contain each other")
  | fuel + 1, tree, pre, acc => do
    (← treeEntries s tree).foldlM (fun acc e =>
      if e.kind = .tree then
        flattenTree fuel e.target (pre ++ e.name ++ ['/']) (acc.1, acc.2.insert (pre ++ e.name))
      else .ok (acc.1.insert (pre ++ e.name) e.slot, acc.2)) acc

def flattenRoot (tree : D) : Result (WorkTree D × DirSet) :=
  flattenTree s s.size tree [] (SortedMap.empty, SortedSet.empty)

def flattenCommit (commit : D) : Result (WorkTree D × DirSet) := do
  flattenRoot s (← getCommit s commit).tree

end Read

/-! ## Namespace collisions -/

/-- A path that is both a leaf and a parent. -/
structure VcsNamespaceCollision where
  path : Path
  leafPath : Path
  childPath : Path
  repairOptions : List String
deriving Repr, DecidableEq

def namespaceCollision (leafPath childPath : Path) : VcsNamespaceCollision where
  path := leafPath
  leafPath := leafPath
  childPath := childPath
  repairOptions :=
    ["remove or unstage the leaf path " ++ leafPath.quote ++ " before committing",
      "rename or move descendants under " ++ leafPath.quote ++ " before committing",
      "if " ++ leafPath.quote ++ " is intended to be a directory, " ++
        "restore it as a directory and keep only descendant paths"]

/-- The leaves that are also a parent, with the child. -/
def collisions (files : WorkTree D) (dirs : DirSet) : List (Path ×ₗ Path) :=
  (files.keys.flatMap fun path =>
    ((pathAncestors path).filter fun a => (files.get a).isSome).map (fun a => toLex (a, path)) ++
      if path ∈ dirs then [toLex (path, path ++ ['/'])] else []) ++
  dirs.elems.flatMap fun dir =>
    (if (files.get dir).isSome then [toLex (dir, dir ++ ['/'])] else []) ++
      ((pathAncestors dir).filter fun a => (files.get a).isSome).map fun a => toLex (a, dir)

/-- The paths that are both a leaf and a parent. -/
def namespacePreflight (files : WorkTree D) (dirs : DirSet) : List VcsNamespaceCollision :=
  (SortedSet.ofList (collisions files dirs)).elems.map fun k =>
    namespaceCollision (ofLex k).1 (ofLex k).2

def namespacePreflightMessage (conflicts : List VcsNamespaceCollision) : String :=
  conflicts.foldl (fun message c =>
    message ++ ": " ++ c.leafPath.quote ++ " is both a leaf path and a parent of " ++
      c.childPath.quote ++ "; repair options: " ++ "; ".intercalate c.repairOptions)
    "vcs namespace collision preflight failed"

def validateVcsNamespacePreflight (files : WorkTree D) (dirs : DirSet) : Result Unit :=
  match namespacePreflight files dirs with
  | [] => .ok ()
  | conflicts => .error (.invalid (namespacePreflightMessage conflicts))

end UldrenLoom.Vcs
