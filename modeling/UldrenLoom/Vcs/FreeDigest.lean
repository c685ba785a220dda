import UldrenLoom.Lib.Serial
import UldrenLoom.Vcs.Digest
import UldrenLoom.Vcs.Engine

/-!
# Digests that do not collide

A hash without collisions: the digest of an object is the object itself, written as a list of
numbers. Examples and counterexamples are stated over it.

* **`freeHash_injective`**: no two objects share a digest.
-/

namespace UldrenLoom.Vcs

open ByteString Serial

/-- Digests that are the objects they stand for. -/
abbrev FreeDigest := List ℕ

theorem objectType_injective : Function.Injective ObjectType.ctorIdx := by
  intro a b
  cases a <;> cases b <;> simp [ObjectType.ctorIdx]

theorem entryKind_injective : Function.Injective EntryKind.ctorIdx := by
  intro a b
  cases a <;> cases b <;> simp [EntryKind.ctorIdx]

instance : Serial ObjectType := ofInjective _ objectType_injective

instance : Serial EntryKind := ofInjective _ entryKind_injective

variable {D : Type} [Serial D]

instance : Serial (TreeEntry D) := ofInjective (fun e => (e.name, e.kind, e.target, e.mode)) (by
  rintro ⟨⟩ ⟨⟩ h
  simpa using h)

instance : Serial (ChunkRef D) := ofInjective (fun c => (c.target, c.size)) (by
  rintro ⟨⟩ ⟨⟩ h
  simpa using h)

instance : Serial (Commit D) := ofInjective
  (fun c => (c.tree, c.parents, c.author, c.timestampMs, c.message, c.metadata)) (by
    rintro ⟨⟩ ⟨⟩ h
    simpa using h)

instance : Serial (Tag D) := ofInjective
  (fun t => (t.target, t.targetType, t.name, t.tagger, t.timestampMs, t.message)) (by
    rintro ⟨⟩ ⟨⟩ h
    simpa using h)

def Object.parts : Object D → Bytes ⊕ (UInt64 × List (ChunkRef D)) ⊕ List (TreeEntry D) ⊕ Commit D ⊕ Tag D
  | .blob bytes => .inl bytes
  | .chunkList size entries => .inr (.inl (size, entries))
  | .tree entries => .inr (.inr (.inl entries))
  | .commit c => .inr (.inr (.inr (.inl c)))
  | .tag t => .inr (.inr (.inr (.inr t)))

instance : Serial (Object D) := ofInjective Object.parts (by
  intro a b
  cases a <;> cases b <;> simp [Object.parts])

/-- What is stored as what it consists of. -/
def Stored.parts : Stored D → Object D ⊕ List (Bytes × Bytes) ⊕ List (Bytes × D)
  | .object o => .inl o
  | .node (.leaf entries) => .inr (.inl entries)
  | .node (.internal children) => .inr (.inr children)

instance : Serial (Stored D) := ofInjective Stored.parts (by
  rintro (_ | (_ | _)) (_ | (_ | _)) <;> simp [Stored.parts])

/-- The hash that does not collide. -/
def freeHash (x : Stored FreeDigest) : FreeDigest := ser x []

theorem freeHash_injective : Function.Injective freeHash := ser_injective []

/-! ## Written digests -/

namespace FreeDigest

/-- Numbers by their quotients in unary and their remainders, with a mark at the end. -/
def bytes (d : FreeDigest) : Bytes :=
  d.foldr (fun n rest => List.replicate (n / 200) 1 ++ UInt8.ofNat (n % 200 + 2) :: rest) [0]

/-- Read on after the numbers `acc`, the last one first, with `n` counted of the next one. -/
def readFrom : Bytes → (n : ℕ) → (acc : FreeDigest) → Result (FreeDigest × Bytes)
  | [], _, _ => .error truncated
  | b :: rest, n, acc =>
    if b = 0 then .ok (acc.reverse, rest)
    else if b = 1 then readFrom rest (n + 200) acc
    else readFrom rest 0 ((n + (b.toNat - 2)) :: acc)

theorem readFrom_replicate (k n : ℕ) (acc : FreeDigest) (rest : Bytes) :
    readFrom (List.replicate k 1 ++ rest) n acc = readFrom rest (n + 200 * k) acc := by
  induction k generalizing n with
  | zero => rfl
  | succ k ih =>
    change readFrom (List.replicate k 1 ++ rest) (n + 200) acc = _
    rw [ih, Nat.mul_succ, Nat.add_right_comm, Nat.add_assoc]

theorem readFrom_bytes (d acc : FreeDigest) (rest : Bytes) :
    readFrom (bytes d ++ rest) 0 acc = .ok (acc.reverse ++ d, rest) := by
  induction d generalizing acc with
  | nil => simp [bytes, readFrom]
  | cons n d ih =>
    have hcons : bytes (n :: d) ++ rest =
        List.replicate (n / 200) 1 ++ (UInt8.ofNat (n % 200 + 2) :: (bytes d ++ rest)) := by
      simp [bytes]
    have hlast : (UInt8.ofNat (n % 200 + 2)).toNat = n % 200 + 2 := Nat.mod_eq_of_lt (by omega)
    have h0 : UInt8.ofNat (n % 200 + 2) ≠ 0 := fun h => by simp [h] at hlast
    have h1 : UInt8.ofNat (n % 200 + 2) ≠ 1 := fun h => by simp [h] at hlast
    rw [hcons, readFrom_replicate, readFrom, if_neg h0, if_neg h1, hlast, ih, List.reverse_cons,
      List.append_assoc, List.singleton_append]
    congr 4
    omega

end FreeDigest

instance : DigestCode FreeDigest where
  algo := .blake3
  bytes := FreeDigest.bytes
  ofBytes bs :=
    match FreeDigest.readFrom bs 0 [] with
    | .ok (d, []) => some d
    | _ => none
  ofBytes_bytes d := by
    have h := FreeDigest.readFrom_bytes d [] []
    rw [List.append_nil] at h
    rw [h]
    rfl
  read buf := FreeDigest.readFrom buf 0 []
  reads d rest := FreeDigest.readFrom_bytes d [] rest

/-! ## Small histories -/

namespace Sample

open Effect

def plainEnv : Env freeHash := Env.plain fun bytes => freeHash (.object (.blob bytes))

def ns : WorkspaceId := .zero

def file (n : ℕ) : StagedEntry FreeDigest := .file ⟨[n], 0o100644⟩

def storeCommit (files : List (String × StagedEntry FreeDigest)) (dirs : List String)
    (parents : List FreeDigest) : Update (ContentStore freeHash) FreeDigest := do
  let root ← buildSubtree (fun _ _ => false)
    (SortedMap.ofList (files.map fun e => (e.1.toList, e.2)))
    (SortedSet.ofList (dirs.map String.toList)) []
  putObject (.commit ⟨root, parents, "author", 1, "message", []⟩)

variable (history : Update (ContentStore freeHash) (List (String × FreeDigest)))

/-- A workspace with branches, the first of them current and checked out. -/
def workspace : Update (Loom freeHash) Unit := do
  let branches ← Loom.onStore history
  let registry ← liftM ((← get).registry.createWorkspace none ns)
  modify fun L => { L with registry := registry }
  branches.forM fun b => Loom.updateBranch ns b.1.toList none b.2
  match branches with
  | [] => return
  | b :: _ => Loom.checkoutCommit plainEnv ns b.2

def loom : Loom freeHash := (exec (workspace history) Loom.new).2

end Sample

end UldrenLoom.Vcs
