import UldrenLoom.Lib.ContentStore
import UldrenLoom.Prolly.Model

/-!
# Objects

The content objects of the version-control engine and the store that holds them.

* **`makeTree_ok_iff`**: when a tree can be made, and that it has the given entries.

Names and paths are lists of characters: their lexicographic order is that of their UTF-8 bytes.
-/

namespace UldrenLoom.Vcs

open ByteString List

abbrev Path := List Char

/-- The escapes of a character in the debug form of a string. Outside Latin-1 every character stands
for itself, as those do that Rust's tables call printable. -/
def escapeDebug (c : Char) : List Char :=
  match c with
  | '\x00' => ['\\', '0']
  | '\t' => ['\\', 't']
  | '\r' => ['\\', 'r']
  | '\n' => ['\\', 'n']
  | '\\' => ['\\', '\\']
  | '"' => ['\\', '"']
  | c => if c.toNat < 0x20 ∨ (0x7f ≤ c.toNat ∧ c.toNat < 0xa0) ∨ c.toNat = 0xad then
      ['\\', 'u', '\x7b'] ++ Nat.toDigits 16 c.toNat ++ ['\x7d']
    else [c]

def Path.quote (p : Path) : String := String.ofList ('"' :: p.flatMap escapeDebug ++ ['"'])

def Path.bytes (p : Path) : Bytes := strBytes (String.ofList p)

/-- The object types. -/
inductive ObjectType where
  | blob
  | chunkList
  | tree
  | commit
  | tag
deriving Repr, DecidableEq

def ObjectType.text : ObjectType → String
  | .blob => "Blob"
  | .chunkList => "ChunkList"
  | .tree => "Tree"
  | .commit => "Commit"
  | .tag => "Tag"

/-- What a tree entry points at. -/
inductive EntryKind where
  | tree
  | blob
  | symlink
  | subloom
  | treeShard
  | table
  | prollyMap
  | stream
  | timeSeries
  | graph
  | ledger
  | columnar
  | document
deriving Repr, DecidableEq

/-- One tree entry. -/
structure TreeEntry (D : Type) where
  name : Path
  kind : EntryKind
  target : D
  mode : UInt32
deriving Repr, DecidableEq

/-- One chunk of a large file. -/
structure ChunkRef (D : Type) where
  target : D
  size : UInt64
deriving Repr, DecidableEq

/-- A snapshot with its lineage and authorship. -/
structure Commit (D : Type) where
  tree : D
  parents : List D
  author : String
  timestampMs : UInt64
  message : String
  metadata : List (String × String)
deriving Repr, DecidableEq

/-- A named pointer to another object. -/
structure Tag (D : Type) where
  target : D
  targetType : ObjectType
  name : Path
  tagger : String
  timestampMs : UInt64
  message : String
deriving Repr, DecidableEq

/-- A content object. -/
inductive Object (D : Type) where
  | blob (bytes : Bytes)
  | chunkList (totalSize : UInt64) (entries : List (ChunkRef D))
  | tree (entries : List (TreeEntry D))
  | commit (c : Commit D)
  | tag (t : Tag D)
deriving Repr, DecidableEq

/-- What the store holds at a digest. -/
inductive Stored (D : Type) where
  | object (o : Object D)
  | node (n : Prolly.Node D)
deriving Repr, DecidableEq

namespace Object

variable {D : Type}

def objectType : Object D → ObjectType
  | .blob _ => .blob
  | .chunkList _ _ => .chunkList
  | .tree _ => .tree
  | .commit _ => .commit
  | .tag _ => .tag

/-! ## Trees -/

/-- The entries in the canonical order of their names. -/
def sortEntries (entries : List (TreeEntry D)) : List (TreeEntry D) :=
  entries.insertionSort fun a b => a.name ≤ b.name

/-- The first name that two neighbours share. -/
def duplicateName : List (TreeEntry D) → Option Path
  | a :: b :: es => if a.name = b.name then some a.name else duplicateName (b :: es)
  | _ => none

/-- A tree in canonical entry order (`Object::tree`); a name given twice is an error. -/
def makeTree (entries : List (TreeEntry D)) : Result (Object D) :=
  match duplicateName (sortEntries entries) with
  | some name => .error (.invalid ("duplicate tree entry name " ++ name.quote))
  | none => .ok (.tree (sortEntries entries))

/-- The names ascend strictly, as decoding demands. -/
def Canonical (entries : List (TreeEntry D)) : Prop := entries.Pairwise fun a b => a.name < b.name

instance (entries : List (TreeEntry D)) : Decidable (Canonical entries) :=
  inferInstanceAs (Decidable (entries.Pairwise fun a b => a.name < b.name))

def decode : Stored D → Result (Object D)
  | .object (.tree es) =>
    if Canonical es then .ok (.tree es)
    else .error (.corrupt "tree entries not in canonical ascending order")
  | .object o => .ok o
  | .node (.leaf _) => .error (Cbor.err .wrongEpoch)
  | .node (.internal _) => .error (Cbor.err .notAnObject)

theorem perm_sortEntries (es : List (TreeEntry D)) : (sortEntries es).Perm es :=
  perm_insertionSort _ es

theorem pairwise_sortEntries (es : List (TreeEntry D)) :
    (sortEntries es).Pairwise fun a b => a.name ≤ b.name := by
  have : Std.Total fun a b : TreeEntry D => a.name ≤ b.name := ⟨fun a b => le_total a.name b.name⟩
  have : IsTrans (TreeEntry D) fun a b => a.name ≤ b.name := ⟨fun _ _ _ => le_trans⟩
  exact pairwise_insertionSort _ es

variable {es : List (TreeEntry D)}

theorem duplicateName_eq_none (h : es.Pairwise fun a b => a.name ≤ b.name) :
    duplicateName es = none ↔ Canonical es := by
  induction es with
  | nil => simp [duplicateName, Canonical]
  | cons a es ih =>
    cases es with
    | nil => simp [duplicateName, Canonical]
    | cons b es =>
      have hab := rel_of_pairwise_cons h (mem_cons_self ..)
      rw [duplicateName, Canonical, pairwise_cons]
      split_ifs with hn
      · refine ⟨fun h => absurd h (by simp), fun h' => absurd hn (h'.1 b (by simp)).ne⟩
      · rw [ih h.of_cons]
        refine ⟨fun hc => ⟨fun c hc' => ?_, hc⟩, And.right⟩
        refine (lt_of_le_of_ne hab hn).trans_le ?_
        rcases mem_cons.mp hc' with rfl | hc'
        · exact le_rfl
        · exact (rel_of_pairwise_cons hc hc').le

theorem Canonical.nodup (h : Canonical es) : (es.map TreeEntry.name).Nodup :=
  pairwise_map.mpr (h.imp fun hab => hab.ne)

theorem canonical_sortEntries : Canonical (sortEntries es) ↔ (es.map TreeEntry.name).Nodup := by
  have hperm := (perm_sortEntries es).map TreeEntry.name
  constructor
  · intro h
    exact hperm.nodup_iff.mp h.nodup
  · intro h
    have hn : (sortEntries es).Pairwise fun a b => a.name ≠ b.name :=
      pairwise_map.mp (hperm.nodup_iff.mpr h)
    exact ((pairwise_sortEntries es).and hn).imp fun hab => lt_of_le_of_ne hab.1 hab.2

theorem makeTree_of_nodup (h : (es.map TreeEntry.name).Nodup) :
    makeTree es = .ok (.tree (sortEntries es)) := by
  rw [makeTree, (duplicateName_eq_none (pairwise_sortEntries es)).mpr (canonical_sortEntries.mpr h)]

/-- **A tree can be made exactly when its entries have different names.** -/
theorem makeTree_ok_iff {o : Object D} :
    makeTree es = .ok o ↔ (es.map TreeEntry.name).Nodup ∧ o = .tree (sortEntries es) := by
  constructor
  · intro h
    cases hd : duplicateName (sortEntries es) with
    | some n => simp [makeTree, hd] at h
    | none =>
      rw [makeTree, hd] at h
      exact ⟨canonical_sortEntries.mp ((duplicateName_eq_none (pairwise_sortEntries es)).mp hd),
        (Except.ok.inj h).symm⟩
  · rintro ⟨h, rfl⟩
    exact makeTree_of_nodup h

theorem decode_sortEntries (h : (es.map TreeEntry.name).Nodup) :
    decode (.object (.tree (sortEntries es))) = .ok (.tree (sortEntries es)) :=
  if_pos (canonical_sortEntries.mpr h)

theorem decode_commit (c : Commit D) : decode (.object (.commit c)) = .ok (.commit c) := rfl

theorem sortEntries_of_canonical (h : Canonical es) : sortEntries es = es := by
  have : Std.Total fun a b : TreeEntry D => a.name ≤ b.name := ⟨fun a b => le_total a.name b.name⟩
  exact List.Pairwise.insertionSort_eq (h.imp fun hab => hab.le)

theorem makeTree_of_canonical (h : Canonical es) : makeTree es = .ok (.tree es) := by
  rw [makeTree_of_nodup h.nodup, sortEntries_of_canonical h]

theorem sortEntries_map {α : Type} (f : α → TreeEntry D) (l : List α) :
    sortEntries (l.map f) = (l.insertionSort fun a b => (f a).name ≤ (f b).name).map f :=
  (map_insertionSort _ _ f l fun _ _ _ _ => Iff.rfl).symm

end Object

/-! ## The store -/

section Store

variable {D : Type} [LinearOrder D] [ToString D] {hash : Stored D → D}

def getObject (s : ContentStore hash) (d : D) : Result (Object D) :=
  match s.get d with
  | some b => Object.decode b
  | none => .error (.notFound ("object " ++ toString d))

def getCommit (s : ContentStore hash) (d : D) : Result (Commit D) := do
  match ← getObject s d with
  | .commit c => .ok c
  | o => .error (.corrupt ("expected a Commit, got " ++ o.objectType.text))

variable {s : ContentStore hash} {d : D} {o : Object D}

theorem getObject_mono {t : ContentStore hash} (h : s ≤ t) (ho : getObject s d = .ok o) :
    getObject t d = .ok o := by
  unfold getObject at ho ⊢
  cases hs : s.get d with
  | none => simp [hs] at ho
  | some b =>
    rw [hs] at ho
    rw [h d b hs]
    exact ho

theorem getObject_put (hinj : Function.Injective hash) (s : ContentStore hash)
    (h : Object.decode (.object o) = .ok o) :
    getObject (s.put (.object o)) (hash (.object o)) = .ok o := by
  rw [getObject, ContentStore.get_put_self hinj]
  exact h

theorem mem_keys_of_getObject (h : getObject s d = .ok o) : d ∈ s.objects.keys := by
  unfold getObject at h
  cases hs : s.get d with
  | none => simp [hs] at h
  | some b => exact ContentStore.mem_keys_of_get hs

theorem getCommit_eq_ok {c : Commit D} :
    getCommit s d = .ok c ↔ getObject s d = .ok (.commit c) := by
  unfold getCommit
  cases h : getObject s d with
  | error e => simp [bind, Except.bind]
  | ok o => cases o <;> simp [bind, Except.bind]

end Store

end UldrenLoom.Vcs
