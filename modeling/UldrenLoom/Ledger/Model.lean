import UldrenLoom.Lib.Merkle
import UldrenLoom.Vcs.Digest
import UldrenLoom.Vcs.Loom

/-!
# Ledger proofs

A ledger's entries are the leaves of a tree of hashes. An inclusion proof shows that a leaf belongs to
a root, and a consistency proof that the tree of an earlier root starts the tree of a later one.
-/

set_option linter.unusedSectionVars false

namespace UldrenLoom.Ledger

open Vcs Merkle

/-- An entry of a ledger, as far as proofs read it. -/
structure LedgerSegmentEntry (D : Type) where
  seq : ℕ
  entryHash : D

/-- A run of entries. -/
structure LedgerSegment (D : Type) where
  entries : List (LedgerSegmentEntry D)

/-- A stored ledger, as far as proofs read it. -/
structure LedgerRootState (D : Type) where
  algo : Algo
  segments : List (LedgerSegment D)

/-- The hashes proofs are made of: of an entry and of a node. -/
structure ProofHash (D : Type) where
  leaf : Algo → WorkspaceId → String → ℕ → D → D
  node : Algo → D → D → D

/-- Where ledgers are read from. -/
structure LedgerSource (D : Type) where
  authorizeCollection : WorkspaceId → FacetKind → String → AclRight → Result Unit
  readRootState : WorkspaceId → String → Result (LedgerRootState D)

/-- A tree of a ledger. -/
structure LedgerProofTree (D : Type) where
  algo : Algo
  workspace : WorkspaceId
  collection : String
  treeSize : ℕ
  rootHash : D

structure LedgerInclusionProof (D : Type) where
  tree : LedgerProofTree D
  seq : ℕ
  leafHash : D
  path : List D

structure LedgerConsistencyProof (D : Type) where
  algo : Algo
  workspace : WorkspaceId
  collection : String
  firstTreeSize : ℕ
  secondTreeSize : ℕ
  firstRootHash : D
  secondRootHash : D
  path : List D

/-! ## Trees -/

section Trees

variable {D : Type} [Inhabited D] (node : D → D → D)

def ledgerMerkleRoot (leaves : List D) : D := Merkle.root node leaves

def ledgerMerkleInclusionPath (leaves : List D) (index : ℕ) : Result (List D) :=
  if leaves.length ≤ index then .error (.invalid "ledger inclusion sequence is outside tree")
  else if leaves.length = 1 then .ok []
  else
    let middle := split leaves.length
    if index < middle then do
      let path ← ledgerMerkleInclusionPath (leaves.take middle) index
      return path ++ [ledgerMerkleRoot node (leaves.drop middle)]
    else do
      let path ← ledgerMerkleInclusionPath (leaves.drop middle) (index - middle)
      return path ++ [ledgerMerkleRoot node (leaves.take middle)]
termination_by leaves.length
decreasing_by
  all_goals
    have := split_lengths leaves (by omega)
    omega

def ledgerMerkleInclusionRoot (leaf : D) (index treeSize : ℕ) (path : List D) : Result D :=
  if treeSize ≤ index then .error (.invalid "ledger inclusion sequence is outside tree")
  else if treeSize = 1 then
    if path.isEmpty then .ok leaf else .error (.invalid "ledger inclusion proof has extra nodes")
  else
    match path.getLast? with
    | none => .error (.invalid "ledger inclusion proof is incomplete")
    | some last =>
      let rest := path.dropLast
      let middle := split treeSize
      if index < middle then do
        let left ← ledgerMerkleInclusionRoot leaf index middle rest
        return node left last
      else do
        let right ← ledgerMerkleInclusionRoot leaf (index - middle) (treeSize - middle) rest
        return node last right
termination_by treeSize
decreasing_by
  · exact split_lt (by omega)
  · have := split_pos treeSize
    omega

/-- The siblings from the last common subtree up, with its root unless it is the first tree
itself. -/
def subproof (leaves : List D) (firstSize : ℕ) (complete : Bool) : List D :=
  if firstSize = leaves.length then if complete then [] else [ledgerMerkleRoot node leaves]
  -- The sizes are such that a tree of at most one leaf is never split.
  else if leaves.length ≤ 1 then []
  else
    let middle := split leaves.length
    if firstSize ≤ middle then
      subproof (leaves.take middle) firstSize complete ++
        [ledgerMerkleRoot node (leaves.drop middle)]
    else
      subproof (leaves.drop middle) (firstSize - middle) false ++
        [ledgerMerkleRoot node (leaves.take middle)]
termination_by leaves.length
decreasing_by
  all_goals
    have := split_lengths leaves (by omega)
    omega

def ledgerMerkleConsistencyPath (leaves : List D) (firstSize : ℕ) : Result (List D) :=
  if firstSize = 0 ∨ leaves.length < firstSize then
    .error (.invalid "invalid ledger consistency tree size")
  else if firstSize = leaves.length then .ok []
  else .ok (subproof node leaves firstSize true)

end Trees

/-! ## The walk up the tree -/

/-- Shift the counters until the first is odd or zero. -/
def skipZeros (first second : ℕ) : ℕ × ℕ :=
  if first ≠ 0 ∧ first % 2 = 0 then skipZeros (first / 2) (second / 2) else (first, second)
termination_by first
decreasing_by omega

/-- Hash the nodes of a path into the two hashes, as the counters say. -/
def consistencyWalk {D : Type} (node : D → D → D) :
    List D → ℕ → ℕ → D → D → Result (D × D)
  | [], _, _, firstHash, secondHash => .ok (firstHash, secondHash)
  | x :: path, first, second, firstHash, secondHash =>
    if second = 0 then .error (.invalid "ledger consistency proof has extra nodes")
    else if first % 2 = 1 ∨ first = second then
      let (first, second) := skipZeros first second
      consistencyWalk node path (first / 2) (second / 2) (node x firstHash) (node x secondHash)
    else consistencyWalk node path (first / 2) (second / 2) firstHash (node secondHash x)

section Proofs

variable {D : Type} [DecidableEq D] (hash : ProofHash D)

/-- Verify a consistency proof. The counters start at the last nodes of the two trees and first leave
the rows in which the first tree's last node is a right child. -/
def ledgerMerkleVerifyConsistency (proof : LedgerConsistencyProof D) : Result Unit :=
  if proof.firstTreeSize = 0 ∨ proof.secondTreeSize < proof.firstTreeSize ∨
      proof.secondTreeSize = 0 then
    .error (.invalid "invalid ledger consistency tree size")
  else if proof.firstTreeSize = proof.secondTreeSize then
    if proof.path ≠ [] ∨ proof.firstRootHash ≠ proof.secondRootHash then
      .error ⟨.integrityFailure, "ledger consistency proof roots differ for equal tree sizes"⟩
    else .ok ()
  else
    match proof.path with
    | [] => .error (.invalid "ledger consistency proof is empty")
    | x :: rest => do
      let (first, second) := Merkle.start (proof.firstTreeSize - 1) (proof.secondTreeSize - 1)
      let (firstHash, secondHash) ←
        if first = 0 then
          consistencyWalk (hash.node proof.algo) (x :: rest) first second proof.firstRootHash
            proof.firstRootHash
        else consistencyWalk (hash.node proof.algo) rest first second x x
      if firstHash ≠ proof.firstRootHash ∨ secondHash ≠ proof.secondRootHash then
        .error ⟨.integrityFailure, "ledger consistency proof root mismatch"⟩
      else .ok ()

def ledgerVerifyConsistencyProof (proof : LedgerConsistencyProof D) : Result Unit :=
  ledgerMerkleVerifyConsistency hash proof

def ledgerVerifyInclusionProof (proof : LedgerInclusionProof D) : Result Unit :=
  if proof.tree.treeSize = 0 then .error (.invalid "ledger inclusion proof has empty tree")
  else do
    let root ← ledgerMerkleInclusionRoot (hash.node proof.tree.algo) proof.leafHash proof.seq
      proof.tree.treeSize proof.path
    if root ≠ proof.tree.rootHash then
      .error ⟨.integrityFailure, "ledger inclusion proof root mismatch"⟩
    else .ok ()

def ledgerProofLeaves (state : LedgerRootState D) (ns : WorkspaceId) (collection : String) :
    List D :=
  state.segments.flatMap fun segment =>
    segment.entries.map fun entry =>
      hash.leaf state.algo ns collection entry.seq entry.entryHash

variable [Inhabited D] (source : LedgerSource D) (ns : WorkspaceId) (collection : String)

def ledgerInclusionProof (seq : ℕ) : Result (LedgerInclusionProof D) := do
  source.authorizeCollection ns .ledger collection .read
  let state ← source.readRootState ns collection
  let leaves := ledgerProofLeaves hash state ns collection
  match leaves[seq]? with
  | none => .error (.notFound "ledger inclusion sequence is absent")
  | some leafHash =>
    let rootHash := ledgerMerkleRoot (hash.node state.algo) leaves
    let path ← ledgerMerkleInclusionPath (hash.node state.algo) leaves seq
    return ⟨⟨state.algo, ns, collection, leaves.length, rootHash⟩, seq, leafHash, path⟩

def ledgerConsistencyProof (first second : ℕ) : Result (LedgerConsistencyProof D) := do
  source.authorizeCollection ns .ledger collection .read
  let state ← source.readRootState ns collection
  let leaves := ledgerProofLeaves hash state ns collection
  if first = 0 ∨ second < first ∨ leaves.length < second then
    .error (.invalid "invalid ledger consistency tree size")
  else do
    let firstRootHash := ledgerMerkleRoot (hash.node state.algo) (leaves.take first)
    let secondRootHash := ledgerMerkleRoot (hash.node state.algo) (leaves.take second)
    let path ← ledgerMerkleConsistencyPath (hash.node state.algo) (leaves.take second) first
    return ⟨state.algo, ns, collection, first, second, firstRootHash, secondRootHash, path⟩

end Proofs

end UldrenLoom.Ledger
