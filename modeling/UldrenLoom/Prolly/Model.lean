import UldrenLoom.Cbor
import UldrenLoom.Lib.OrdMap
import Mathlib.Data.Multiset.DershowitzManna

/-!
# Prolly trees

The probabilistic Merkle B-tree: content-defined nodes in a content-addressed store.

The boundary function is a parameter `B key level`: the source takes some bits of a hash of the key
and the level. Writes made before an error are not visible in the model, as it returns no store then.
-/

namespace UldrenLoom.Prolly

open ByteString Fallible

/-- Guard against a crafted or cyclic tree during traversal. -/
def maxDepth : ℕ := 64

/-- A node: entries, or the largest key and the digest of each child, ascending. -/
inductive Node (D : Type) where
  | leaf (entries : List (Bytes × Bytes))
  | internal (children : List (Bytes × D))
deriving Repr, DecidableEq

abbrev ChildRun (D : Type) := List (Bytes × D)

/-- A change to apply to one key. -/
inductive Change where
  | set (value : Bytes)
  | remove
deriving Repr, DecidableEq

variable {D : Type}

/-! ## The store -/

/-- The in-memory store: every node it holds is at the node's digest. -/
structure MemoryStore (hash : Node D → D) where
  objects : D → Option (Node D)
  addressed : ∀ {d n}, objects d = some n → hash n = d

namespace MemoryStore

variable {hash : Node D → D}

def new : MemoryStore hash := ⟨fun _ => none, fun h => absurd h.symm (Option.some_ne_none _)⟩

variable [DecidableEq D]

/-- Store a node unless its digest is taken, and return the digest. -/
def put (n : Node D) (s : MemoryStore hash) : D × MemoryStore hash :=
  (hash n,
    { objects := fun d => if d = hash n then some ((s.objects d).getD n) else s.objects d
      addressed := by
        intro d m h
        split_ifs at h with hd
        · cases ho : s.objects d with
          | none =>
            rw [ho] at h
            rw [← Option.some.inj h, hd]
            rfl
          | some m' =>
            rw [ho] at h
            exact Option.some.inj h ▸ s.addressed ho
        · exact s.addressed h })

omit [DecidableEq D] in
variable [ToString D] in
def readNode (s : MemoryStore hash) (d : D) : Result (Node D) :=
  match s.objects d with
  | some n => .ok n
  | none => .error (.notFound ("prolly node " ++ toString d))

end MemoryStore

/-! ## Entries of a leaf -/

/-- Where a key is in sorted entries, or where it would be inserted (`binary_search_by`). -/
def search (key : Bytes) (entries : List (Bytes × Bytes)) : Except ℕ ℕ :=
  let i := entries.findIdx fun e => key ≤ e.1
  match entries[i]? with
  | some e => if e.1 = key then .ok i else .error i
  | none => .error i

/-- Apply a change to the entries of a leaf, or to all entries. -/
def Change.apply (change : Change) (key : Bytes) (entries : List (Bytes × Bytes)) :
    List (Bytes × Bytes) :=
  match search key entries with
  | .ok i =>
    match change with
    | .set v => entries.modify i fun e => (e.1, v)
    | .remove => entries.eraseIdx i
  | .error i =>
    match change with
    | .set v => entries.insertIdx i (key, v)
    | .remove => entries

/-! ## Reading -/

section Read

variable (read : D → Result (Node D))

/-- The height of the tree via the leftmost spine, with `left` levels left and `h` above. -/
def heightFrom : (left h : ℕ) → D → Result ℕ
  | 0, _, _ => .error (.corrupt "prolly tree too deep")
  | left + 1, h, d => do
    match ← read d with
    | .leaf _ => .ok h
    | .internal children =>
      match children.head? with
      | none => .error (.corrupt "empty internal node")
      | some c => heightFrom left (h + 1) c.2

def height (root : D) : Result ℕ := heightFrom read (maxDepth + 1) 0 root

def getFrom (key : Bytes) : (left : ℕ) → D → Result (Option Bytes)
  | 0, _ => .error (.corrupt "prolly tree deeper than the structural maximum")
  | left + 1, d => do
    match ← read d with
    | .leaf entries =>
      match search key entries with
      | .ok i => .ok (entries[i]?.map Prod.snd)
      | .error _ => .ok none
    | .internal children =>
      match children.find? fun c => key ≤ c.1 with
      | some c => getFrom key left c.2
      | none => .ok none

def get (root : D) (key : Bytes) : Result (Option Bytes) := getFrom read key maxDepth root

/-- The entries below a digest, with `left` levels left. -/
def collectEntries : (left : ℕ) → D → Result (List (Bytes × Bytes))
  | 0, _ => .error (.corrupt "prolly tree too deep")
  | left + 1, d => do
    match ← read d with
    | .leaf entries => .ok entries
    | .internal children => concatMap (fun c => collectEntries left c.2) children

def entries (root : D) : Result (List (Bytes × Bytes)) :=
  collectEntries read (maxDepth + 1) root

def entriesOf : Option D → Result (List (Bytes × Bytes))
  | some r => entries read r
  | none => .ok []

/-- Leaf entries of the tree whose enclosing leaf is not shared with `held`, with `left` levels
left. -/
def changedEntries [DecidableEq D] (held : List D) :
    (left : ℕ) → D → Result (List (Bytes × Bytes))
  | 0, _ => .error (.corrupt "prolly tree too deep")
  | left + 1, d =>
    if d ∈ held then .ok []
    else do
      match ← read d with
      | .leaf entries => .ok entries
      | .internal children => concatMap (fun c => changedEntries held left c.2) children

/-! ### Reachability -/

/-- The visited node digests and the entries of the visited leaves, in encounter order. -/
structure ProllyReach (D : Type) where
  nodes : List D
  leafEntries : List (Bytes × Bytes)

def ProllyReach.visit (d : D) (es : List (Bytes × Bytes)) (r : ProllyReach D) : ProllyReach D :=
  ⟨d :: r.nodes, es ++ r.leafEntries⟩

/-- The children to visit next, one level further down. -/
def below (depth : ℕ) (children : ChildRun D) : List (D × ℕ) := children.map fun c => (c.2, depth + 1)

/-- How many levels each digest on the stack still has below it. -/
def levelsLeft (stack : List (D × ℕ)) : Multiset ℕ := stack.map fun e => maxDepth + 1 - e.2

theorem levelsLeft_below {depth : ℕ} (h : ¬ maxDepth < depth) (d : D) (children : ChildRun D)
    (stack : List (D × ℕ)) : Multiset.IsDershowitzMannaLT
      (levelsLeft (below depth children ++ stack)) (levelsLeft ((d, depth) :: stack)) := by
  refine ⟨levelsLeft stack, levelsLeft (below depth children), {maxDepth + 1 - depth}, by simp,
    ?_, ?_, ?_⟩
  · rw [levelsLeft, levelsLeft, levelsLeft, List.map_append, ← Multiset.coe_add, add_comm]
  · rw [levelsLeft, levelsLeft, List.map_cons, ← Multiset.cons_coe, ← Multiset.singleton_add]
    exact add_comm _ _
  · intro y hy
    simp only [levelsLeft, below, Multiset.mem_coe, List.mem_map] at hy
    obtain ⟨_, ⟨c, -, rfl⟩, rfl⟩ := hy
    exact ⟨_, Multiset.mem_singleton_self _, by dsimp only; omega⟩

variable [DecidableEq D]

/-- Visit what is on the stack and below it, pruning what is in `held`. -/
def walk (held : List D) : List (D × ℕ) → Result (ProllyReach D)
  | [] => .ok ⟨[], []⟩
  | (d, depth) :: stack =>
    if _h : maxDepth < depth then .error (.corrupt "prolly tree too deep")
    else if d ∈ held then walk held stack
    else
      match read d with
      | .error e => .error e
      | .ok (.leaf es) => (walk held stack).map (·.visit d es)
      | .ok (.internal children) => (walk held (below depth children ++ stack)).map (·.visit d [])
termination_by stack => levelsLeft stack
decreasing_by
  · exact levelsLeft_below _h d [] stack
  · exact levelsLeft_below _h d [] stack
  · exact levelsLeft_below _h d children stack

/-- Walk the tree, pruning every subtree whose node is in `held`. -/
def reachableWithLeaves (root : D) (held : List D) : Result (ProllyReach D) :=
  walk read held [(root, 0)]

def reachableNodes (root : D) : Result (List D) :=
  (reachableWithLeaves read root []).map ProllyReach.nodes

/-! ### Differences -/

/-- One differing key: its value on either side, `none` where it is absent. -/
abbrev DiffEntry := Bytes × Option Bytes × Option Bytes

def nodesOf : Option D → Result (List D)
  | some r => reachableNodes read r
  | none => .ok []

/-- The entries of a tree outside the nodes in `held`, none of an empty one. -/
def changedOf (held : List D) : Option D → Result (List (Bytes × Bytes))
  | some r => changedEntries read held (maxDepth + 1) r
  | none => .ok []

/-- Compare two maps key by key. The source collects the keys of both into a set. -/
def diffMaps (am bm : List (Bytes × Bytes)) : List DiffEntry :=
  let keys := OrdMap.insertAll ((am ++ bm).map fun e => (e.1, ())) []
  keys.filterMap fun k =>
    if OrdMap.get k.1 am = OrdMap.get k.1 bm then none
    else some (k.1, OrdMap.get k.1 am, OrdMap.get k.1 bm)

def diff (a b : Option D) : Result (List DiffEntry) := do
  let aNodes ← nodesOf read a
  let bNodes ← nodesOf read b
  let am ← changedOf read bNodes a
  let bm ← changedOf read aNodes b
  .ok (diffMaps (OrdMap.insertAll am []) (OrdMap.insertAll bm []))

end Read

/-! ## Building -/

section Write

variable [DecidableEq D] [ToString D] {hash : Node D → D} (B : Bytes → ℕ → Bool)

/-- The key of the last element of a run, which is not empty where this is used. -/
def maxKeyOf {α : Type} (run : List (Bytes × α)) : Bytes := (run.getLast?.map Prod.fst).getD default

/-- Store the node of a run and return its largest key and its digest. -/
def flush {α : Type} (node : List (Bytes × α) → Node D) (run : List (Bytes × α))
    (s : MemoryStore hash) : (Bytes × D) × MemoryStore hash :=
  let (d, s) := s.put (node run)
  ((maxKeyOf run, d), s)

/-- Cut a list into nodes after every boundary of `level`; `run` holds what is not flushed yet. -/
def chunkRun {α : Type} (node : List (Bytes × α) → Node D) (level : ℕ) :
    (run xs : List (Bytes × α)) → MemoryStore hash → ChildRun D × MemoryStore hash
  | run, [], s =>
    if run.isEmpty then ([], s)
    else
      let (c, s) := flush node run s
      ([c], s)
  | run, x :: xs, s =>
    if B x.1 level then
      let (c, s) := flush node (run ++ [x]) s
      let (cs, s) := chunkRun node level [] xs s
      (c :: cs, s)
    else chunkRun node level (run ++ [x]) xs s

def chunkLeaves (entries : List (Bytes × Bytes)) (s : MemoryStore hash) :
    ChildRun D × MemoryStore hash := chunkRun B Node.leaf 0 [] entries s

/-- Cut a run of children into internal nodes at the boundaries of `level`. -/
def chunkInternal (level : ℕ) (children : ChildRun D) (s : MemoryStore hash) :
    ChildRun D × MemoryStore hash := chunkRun B Node.internal level [] children s

/-- Add levels above the nodes of level `n` until at most one node remains. Levels are bytes, and
`left` more are available. -/
def addLevels : (left n : ℕ) → ChildRun D → MemoryStore hash →
    Result (ChildRun D × MemoryStore hash)
  | left, n, nodes, s =>
    if nodes.length ≤ 1 then .ok (nodes, s)
    else
      match left with
      | 0 => .error (.corrupt "prolly tree too tall")
      | left + 1 =>
        let (parents, s) := chunkInternal B (n + 1) nodes s
        addLevels left (n + 1) parents s

/-- Build a tree from sorted entries. Level `255` cannot be completed. -/
def build (entries : List (Bytes × Bytes)) (s : MemoryStore hash) :
    Result (Option D × MemoryStore hash) :=
  if entries.isEmpty then .ok (none, s)
  else do
    let (leaves, s) := chunkLeaves B entries s
    let (nodes, s) ← addLevels B 254 0 leaves s
    .ok (nodes.head?.map Prod.snd, s)

/-! ## Incremental edits -/

/-- Materialize all entries, apply the change, and build. -/
def rebuildWith (root : D) (key : Bytes) (change : Change) (s : MemoryStore hash) :
    Result (Option D × MemoryStore hash) := do
  let es ← entries s.readNode root
  build B (change.apply key es) s

/-- A non-empty leaf whose last key is not a boundary must merge with the leaf after it. -/
def leafOpen (es : List (Bytes × Bytes)) : Bool := es.getLast?.any fun e => !B e.1 0

/-- The source indexes an empty slice here and panics. -/
def indexPanic : LoomError := .corrupt "index out of bounds"

/-- The nodes that replace a subtree after a change, or `none` if it opens a leaf that is
followed. -/
def mutate (key : Bytes) (change : Change) :
    (level : ℕ) → D → (rightmost : Bool) → MemoryStore hash →
      Result (Option (ChildRun D) × MemoryStore hash)
  | level, d, rightmost, s => do
    match ← s.readNode d with
    | .leaf es =>
      let es := change.apply key es
      if leafOpen B es && !rightmost then .ok (none, s)
      else
        let (nodes, s) := chunkLeaves B es s
        .ok (some nodes, s)
    | .internal children =>
      match level with
      | 0 => .error (.corrupt "internal node at level 0")
      | level + 1 =>
        let i := (children.findIdx? fun c => key ≤ c.1).getD (children.length - 1)
        match children[i]? with
        | none => .error indexPanic
        | some c => do
          let (sub, s) ← mutate key change level c.2 (rightmost && i == children.length - 1) s
          match sub with
          | none => .ok (none, s)
          | some sub =>
            let next := children.take i ++ sub ++ children.drop (i + 1)
            if next.isEmpty then .ok (some [], s)
            else
              let (nodes, s) := chunkInternal B (level + 1) next s
              .ok (some nodes, s)

/-- Collapse internal roots with a single child, with `left` nodes left to read. -/
def collapseRoot (s : MemoryStore hash) : (left : ℕ) → D → Result D
  | 0, _ => .error (.corrupt "prolly collapse too deep")
  | left + 1, root => do
    match ← s.readNode root with
    | .internal [c] => collapseRoot s left c.2
    | _ => .ok root

/-- Build the final root from the re-chunked nodes of `level`. -/
def finish (nodes : ChildRun D) (level : ℕ) (s : MemoryStore hash) :
    Result (D × MemoryStore hash) := do
  let (nodes, s) ← addLevels B (255 - level) level nodes s
  match nodes.head? with
  | none => .error (.corrupt "empty prolly result")
  | some c => do
    let root ← collapseRoot s (maxDepth + 1) c.2
    .ok (root, s)

/-- The source unwraps `None` here and panics. -/
def emptyPanic : LoomError := .corrupt "expected a non-empty tree"

def expectRoot (r : Option D × MemoryStore hash) : Result (D × MemoryStore hash) :=
  match r with
  | (some d, s) => .ok (d, s)
  | (none, _) => .error emptyPanic

/-- Insert or replace a key in the tree at `root`, `none` for an empty tree. -/
def insert (root : Option D) (key value : Bytes) (s : MemoryStore hash) :
    Result (D × MemoryStore hash) :=
  match root with
  | none => build B [(key, value)] s >>= expectRoot
  | some r => do
    let h ← height s.readNode r
    let (nodes, s) ← mutate B key (.set value) h r true s
    match nodes with
    | some nodes => finish B nodes h s
    | none => rebuildWith B r key (.set value) s >>= expectRoot

/-- Remove a key from the tree at `root`; the new root is `none` if the tree is now empty. -/
def remove (root : D) (key : Bytes) (s : MemoryStore hash) :
    Result (Option D × MemoryStore hash) := do
  let h ← height s.readNode root
  let (nodes, s) ← mutate B key .remove h root true s
  match nodes with
  | some [] => .ok (none, s)
  | some nodes => do
    let (d, s) ← finish B nodes h s
    .ok (some d, s)
  | none => rebuildWith B root key .remove s

end Write

end UldrenLoom.Prolly
