import UldrenLoom.Vcs.Loom
import UldrenLoom.Vcs.RegistryCodec

/-!
# The bytes of the engine state

* **`reads_importTail`**, **`splitStateSections_exportState`**: the sections are read back, and are
  cut where they were joined.
-/

namespace UldrenLoom.Vcs

open ByteString Fallible
open Wire (Reads putUvarint putList)

/-- The part of the engine that is written out. -/
structure Persisted (D : Type) [LinearOrder D] where
  registry : Registry D
  content : SortedMap D D
  work : SortedMap WorkspaceId (WorkTree D)
  dirs : SortedMap WorkspaceId DirSet
  compression : SortedMap WorkspaceId CompressionHint
  consumerOffsets : SortedMap (WorkspaceId ×ₗ Path ×ₗ Path) UInt64
  mergeState : SortedMap WorkspaceId (MergeInProgress D)
  index : SortedMap WorkspaceId (WorkTree D)
  nextInode : UInt64
  nextHandle : UInt64
  inodes : SortedMap UInt64 (Inode D)
  handles : SortedMap UInt64 OpenHandle
  protectedRefs : SortedMap (WorkspaceId ×ₗ Path) ProtectedRefPolicy
  streamLowWaterMarks : SortedMap (WorkspaceId ×ₗ Path) UInt64

def CompressionHint.toU8 : CompressionHint → UInt8
  | .none => 0
  | .fast => 1
  | .small => 2

def CompressionHint.fromU8 (b : UInt8) : CompressionHint :=
  if b = 0 then .none else if b = 1 then .fast else .small

def OpenMode.toU8 : OpenMode → UInt8
  | .read => 0
  | .write => 1
  | .readWrite => 2
  | .append => 3

def hexByte (b : UInt8) : String := "0x" ++ String.ofList (Nat.toDigits 16 b.toNat)

def OpenMode.fromU8 (b : UInt8) : Result OpenMode :=
  if b = 0 then .ok .read
  else if b = 1 then .ok .write
  else if b = 2 then .ok .readWrite
  else if b = 3 then .ok .append
  else .error (.corrupt ("unknown open-mode tag " ++ hexByte b))

variable {D : Type} [DigestCode D]

/-! ## Writing -/

def putLp (bytes : Bytes) : Bytes := putUvarint (UInt64.ofNat bytes.length) ++ bytes

def putPath (p : Path) : Bytes := putLp p.bytes

def putBool (b : Bool) : Bytes := [if b then 1 else 0]

def putRoot (tag : UInt8) (root : D) : Bytes := [tag] ++ DigestCode.bytes root

def putSlot : StagedEntry D → Bytes
  | .file f => putRoot 0 f.contentAddr ++ putUvarint f.mode.toUInt64
  | .table root => putRoot 1 root
  | .stream root => putRoot 2 root
  | .timeSeries root => putRoot 3 root
  | .graph root => putRoot 4 root
  | .ledger root => putRoot 5 root
  | .columnar root => putRoot 6 root
  | .document root => putRoot 7 root

def putOptSlot : Option (StagedEntry D) → Bytes
  | none => [0]
  | some slot => [1] ++ putSlot slot

def putSlots (l : List (Path × StagedEntry D)) : Bytes :=
  putList (fun e => putPath e.1 ++ putSlot e.2) l

def putStagedMap (l : List (WorkspaceId × List (Path × StagedEntry D))) : Bytes :=
  putList (fun e => e.1.bytes ++ putSlots e.2) l

def stagedLists (m : SortedMap WorkspaceId (WorkTree D)) :
    List (WorkspaceId × List (Path × StagedEntry D)) := m.entries.map fun e => (e.1, e.2.entries)

def putRegistry (bytes : Bytes) : Bytes := putLp bytes

def putContent [LinearOrder D] (m : SortedMap D D) : Bytes :=
  putList (fun e => DigestCode.bytes e.1 ++ DigestCode.bytes e.2) m.entries

def putDirs (m : SortedMap WorkspaceId DirSet) : Bytes :=
  putList (fun e => e.1.bytes ++ putList putPath e.2.elems) m.entries

def putCompression (m : SortedMap WorkspaceId CompressionHint) : Bytes :=
  putList (fun e => e.1.bytes ++ [e.2.toU8]) m.entries

def putConsumerOffsets (m : SortedMap (WorkspaceId ×ₗ Path ×ₗ Path) UInt64) : Bytes :=
  putList (fun e => (ofLex e.1).1.bytes ++ (putPath (ofLex (ofLex e.1).2).1 ++
    (putPath (ofLex (ofLex e.1).2).2 ++ putUvarint e.2))) m.entries

def putConflict (c : MergeConflict D) : Bytes :=
  putPath c.path ++ (putOptSlot c.base ++ (putOptSlot c.ours ++ putOptSlot c.theirs))

def putMerge (ns : WorkspaceId) (m : MergeInProgress D) : Bytes :=
  ns.bytes ++ (DigestCode.bytes m.otherParent ++ (DigestCode.bytes m.ourHead ++
    (putLp (strBytes m.message) ++ (putList putConflict m.conflicts ++
      (putSlots m.preWork.entries ++ putList putPath m.preDirs.elems)))))

def putMergeState (m : SortedMap WorkspaceId (MergeInProgress D)) : Bytes :=
  putList (fun e => putMerge e.1 e.2) m.entries

def putOptPath : Option Path → Bytes
  | none => [0]
  | some p => [1] ++ putPath p

def putInode (id : UInt64) (ino : Inode D) : Bytes :=
  putUvarint id ++ (ino.ns.bytes ++ (putOptPath ino.path ++ (DigestCode.bytes ino.contentAddr ++
    (putUvarint ino.size ++ (putUvarint ino.mode.toUInt64 ++ putUvarint ino.openCount.toUInt64)))))

def putHandle (id : UInt64) (h : OpenHandle) : Bytes :=
  putUvarint id ++ (putUvarint h.inode ++ (putUvarint h.offset ++ [h.mode.toU8]))

def putOpenFiles (nextInode nextHandle : UInt64) (inodes : SortedMap UInt64 (Inode D))
    (handles : SortedMap UInt64 OpenHandle) : Bytes :=
  putUvarint nextInode ++ (putUvarint nextHandle ++
    (putList (fun e => putInode e.1 e.2) inodes.entries ++
      putList (fun e => putHandle e.1 e.2) handles.entries))

def putPolicy (policy : ProtectedRefPolicy) : Bytes :=
  putBool policy.fastForwardOnly ++ (putBool policy.signedCommitsRequired ++
    (putBool policy.signedRefAdvanceRequired ++ (putUvarint policy.requiredReviewCount.toUInt64 ++
      (putBool policy.retentionLock ++ putBool policy.governanceLock))))

def putProtectedRefs (m : SortedMap (WorkspaceId ×ₗ Path) ProtectedRefPolicy) : Bytes :=
  putList (fun e => (ofLex e.1).1.bytes ++ (putPath (ofLex e.1).2 ++ putPolicy e.2)) m.entries

def putStreamLowWaterMarks (m : SortedMap (WorkspaceId ×ₗ Path) UInt64) : Bytes :=
  putList (fun e => (ofLex e.1).1.bytes ++ (putPath (ofLex e.1).2 ++ putUvarint e.2)) m.entries

/-- The sections of the state, with the registry already encoded. -/
def sections [LinearOrder D] (registry : Bytes) (p : Persisted D) : List Bytes :=
  [putRegistry registry, putContent p.content, putStagedMap (stagedLists p.work), putDirs p.dirs,
    putCompression p.compression, putConsumerOffsets p.consumerOffsets, putMergeState p.mergeState,
    putStagedMap (stagedLists p.index), putOpenFiles p.nextInode p.nextHandle p.inodes p.handles,
    putProtectedRefs p.protectedRefs, putStreamLowWaterMarks p.streamLowWaterMarks]

def exportState [LinearOrder D] (p : Persisted D) : Result Bytes := do
  let registry ← p.registry.encode
  return (sections registry p).flatten

/-! ## Reading -/

namespace StateCur

abbrev Cur := Wire.Reader LoomError

def uvarint : Cur UInt64 :=
  Wire.uvarint (.corrupt "engine-state uvarint truncated") (.corrupt "engine-state uvarint too long")

def list {α : Type} (p : Cur α) : Cur (List α) :=
  Wire.list (.corrupt "engine-state uvarint truncated") (.corrupt "engine-state uvarint too long") p

def map {K V : Type} [LinearOrder K] (p : Cur (K × V)) : Cur (SortedMap K V) := do
  return SortedMap.ofList (← list p)

def take (n : ℕ) : Cur Bytes := Wire.take truncated n

def u8 : Cur UInt8
  | [] => .error truncated
  | b :: rest => .ok (b, rest)

def bool : Cur Bool := do
  let b ← u8
  if b = 0 then return false
  else if b = 1 then return true
  else throw (.corrupt "engine-state bool tag")

def take16 : Cur WorkspaceId := do
  let bs ← Wire.takeExact truncated 16
  return ⟨bs.1, bs.2⟩

def take32 : Cur D := DigestCode.read

def lp : Cur Bytes := do
  let n ← uvarint
  take n.toNat

def lpStr : Cur String := do
  let raw ← lp
  match strOfBytes? raw with
  | some s => return s
  | none => throw (.corrupt "non-utf8 engine-state string")

def path : Cur Path := do return (← lpStr).toList

/-- A number cut to 32 bits: a mode or a count. -/
def u32 : Cur UInt32 := do return (← uvarint).toUInt32

def slot : Cur (StagedEntry D) := do
  let tag ← u8
  if tag = 0 then
    let contentAddr ← take32
    let mode ← u32
    return .file ⟨contentAddr, mode⟩
  else if tag = 1 then return .table (← take32)
  else if tag = 2 then return .stream (← take32)
  else if tag = 3 then return .timeSeries (← take32)
  else if tag = 4 then return .graph (← take32)
  else if tag = 5 then return .ledger (← take32)
  else if tag = 6 then return .columnar (← take32)
  else if tag = 7 then return .document (← take32)
  else throw (.corrupt ("unknown staged-slot tag " ++ hexByte tag))

def optSlot : Cur (Option (StagedEntry D)) := do
  let tag ← u8
  if tag = 0 then return none else return some (← slot)

def slots : Cur (List (Path × StagedEntry D)) := list do
  let path ← path
  let slot ← slot
  return (path, slot)

def workTree : Cur (WorkTree D) := do return SortedMap.ofList (← slots)

def staged : Cur (WorkspaceId × List (Path × StagedEntry D)) := do
  let ns ← take16
  let slots ← slots
  return (ns, slots)

def stagedLists : Cur (List (WorkspaceId × List (Path × StagedEntry D))) := list staged

def ofStagedLists (l : List (WorkspaceId × List (Path × StagedEntry D))) :
    SortedMap WorkspaceId (WorkTree D) :=
  SortedMap.ofList (l.map fun e => (e.1, SortedMap.ofList e.2))

def stagedMap : Cur (SortedMap WorkspaceId (WorkTree D)) := do
  return ofStagedLists (← stagedLists)

def registry : Cur (Registry D) := do
  let bytes ← lp
  Registry.decode bytes

/-- A content address and the object that holds the content. -/
def contentPair : Cur (D × D) := do
  let contentAddr ← take32
  let objectAddr ← take32
  return (contentAddr, objectAddr)

def content [LinearOrder D] : Cur (SortedMap D D) := map contentPair

def dirSet : Cur DirSet := do return SortedSet.ofList (← list path)

def dirs : Cur (SortedMap WorkspaceId DirSet) := map do
  let ns ← take16
  let set ← dirSet
  return (ns, set)

def compression : Cur (SortedMap WorkspaceId CompressionHint) := map do
  let ns ← take16
  let hint ← u8
  return (ns, CompressionHint.fromU8 hint)

def consumerOffsets : Cur (SortedMap (WorkspaceId ×ₗ Path ×ₗ Path) UInt64) := map do
  let ns ← take16
  let stream ← path
  let consumer ← path
  let nextSeq ← uvarint
  return (toLex (ns, toLex (stream, consumer)), nextSeq)

def conflict : Cur (MergeConflict D) := do
  let path ← path
  let base ← optSlot
  let ours ← optSlot
  let theirs ← optSlot
  return ⟨path, base, ours, theirs⟩

def merge : Cur (WorkspaceId × MergeInProgress D) := do
  let ns ← take16
  let otherParent ← take32
  let ourHead ← take32
  let message ← lpStr
  let conflicts ← list conflict
  let preWork ← workTree
  let preDirs ← dirSet
  return (ns, ⟨otherParent, ourHead, message, conflicts, preWork, preDirs⟩)

def mergeState : Cur (SortedMap WorkspaceId (MergeInProgress D)) := map merge

def optPath : Cur (Option Path) := do
  let tag ← u8
  if tag = 0 then return none else return some (← path)

def inode : Cur (UInt64 × Inode D) := do
  let id ← uvarint
  let ns ← take16
  let path ← optPath
  let contentAddr ← take32
  let size ← uvarint
  let mode ← u32
  let openCount ← u32
  return (id, ⟨ns, path, contentAddr, size, mode, openCount⟩)

def openMode : Cur OpenMode := do OpenMode.fromU8 (← u8)

def handle : Cur (UInt64 × OpenHandle) := do
  let id ← uvarint
  let inode ← uvarint
  let offset ← uvarint
  let mode ← openMode
  return (id, ⟨inode, offset, mode⟩)

def openFiles :
    Cur (UInt64 × UInt64 × SortedMap UInt64 (Inode D) × SortedMap UInt64 OpenHandle) := do
  let nextInode ← uvarint
  let nextHandle ← uvarint
  let inodes ← map inode
  let handles ← map handle
  return (nextInode, nextHandle, inodes, handles)

def policy : Cur ProtectedRefPolicy := do
  let fastForwardOnly ← bool
  let signedCommitsRequired ← bool
  let signedRefAdvanceRequired ← bool
  let requiredReviewCount ← u32
  let retentionLock ← bool
  let governanceLock ← bool
  return ⟨fastForwardOnly, signedCommitsRequired, signedRefAdvanceRequired, requiredReviewCount,
    retentionLock, governanceLock⟩

def protectedRefs : Cur (SortedMap (WorkspaceId ×ₗ Path) ProtectedRefPolicy) := map do
  let ns ← take16
  let refName ← path
  let policy ← policy
  return (toLex (ns, refName), policy)

def streamLowWaterMarks : Cur (SortedMap (WorkspaceId ×ₗ Path) UInt64) := map do
  let ns ← take16
  let stream ← path
  let mark ← uvarint
  return (toLex (ns, stream), mark)

/-- A trailing section; older encodings end before it. -/
def trailing {α : Type} (absent : α) (p : Cur α) : Cur α := fun buf =>
  if buf = [] then .ok (absent, buf) else p buf

end StateCur

open StateCur (Cur)

/-- The sections after the content map. Without an index the working trees are what is staged. -/
def importTail [LinearOrder D] (registry : Registry D) (content : SortedMap D D) :
    Cur (Persisted D) := do
  let work ← StateCur.stagedMap
  let dirs ← StateCur.dirs
  let compression ← StateCur.compression
  let consumerOffsets ← StateCur.trailing SortedMap.empty StateCur.consumerOffsets
  let mergeState ← StateCur.trailing SortedMap.empty StateCur.mergeState
  let index ← StateCur.trailing work StateCur.stagedMap
  let files ← StateCur.trailing (1, 1, SortedMap.empty, SortedMap.empty) StateCur.openFiles
  let protectedRefs ← StateCur.trailing SortedMap.empty StateCur.protectedRefs
  let streamLowWaterMarks ← StateCur.trailing SortedMap.empty StateCur.streamLowWaterMarks
  return ⟨registry, content, work, dirs, compression, consumerOffsets, mergeState, index, files.1,
    files.2.1, files.2.2.1, files.2.2.2, protectedRefs, streamLowWaterMarks⟩

/-- The state of exported bytes. Bytes after the last section are ignored. -/
def parseState [LinearOrder D] (bytes : Bytes) : Result (Persisted D) := do
  let (p, _) ← (do
    let registry ← StateCur.registry
    let content ← StateCur.content
    importTail registry content : Cur (Persisted D)) bytes
  return p

/-! ## Splitting -/

namespace StateCur

def skipOptionalStagedEntry : Cur Unit := do
  let tag ← u8
  if tag = 0 then return ()
  else if tag = 1 then discard (slot : Cur (StagedEntry D))
  else throw (.corrupt "engine-state optional slot tag")

def skipConflict : Cur Unit := do
  let _ ← path
  skipOptionalStagedEntry (D := D)
  skipOptionalStagedEntry (D := D)
  skipOptionalStagedEntry (D := D)

def skipMerge : Cur Unit := do
  let _ ← take16
  let _ ← (take32 : Cur D)
  let _ ← (take32 : Cur D)
  let _ ← lpStr
  let _ ← list (skipConflict (D := D))
  let _ ← (slots : Cur (List (Path × StagedEntry D)))
  discard (list path)

def skipHandle : Cur Unit := do
  let _ ← uvarint
  let _ ← uvarint
  let _ ← uvarint
  discard u8

def skipOpenFiles : Cur Unit := do
  let _ ← uvarint
  let _ ← uvarint
  let _ ← list (inode : Cur (UInt64 × Inode D))
  discard (list skipHandle)

end StateCur

/-- The splitters of the sections, in order; most are the reader of the section with its result
dropped. -/
def skippers (D : Type) [DigestCode D] [LinearOrder D] : List (Cur Unit) :=
  [discard StateCur.lp, discard (StateCur.content : Cur (SortedMap D D)),
    discard (StateCur.stagedLists : Cur (List (WorkspaceId × List (Path × StagedEntry D)))),
    discard StateCur.dirs, discard StateCur.compression, discard StateCur.consumerOffsets,
    discard (StateCur.list (StateCur.skipMerge (D := D))),
    discard (StateCur.stagedLists : Cur (List (WorkspaceId × List (Path × StagedEntry D)))),
    StateCur.skipOpenFiles (D := D), discard StateCur.protectedRefs,
    discard StateCur.streamLowWaterMarks]

/-- The sections cut out again. -/
def splitStateSections (D : Type) [DigestCode D] [LinearOrder D] (bytes : Bytes) :
    Result (List Bytes) := do
  let (sections, rest) ← ((skippers D).mapM Wire.span : Cur (List Bytes)) bytes
  if rest = [] then .ok sections else .error (.corrupt "engine-state trailing bytes")

/-! ## Fields are read back -/

/-- A length that fits a `u64`. -/
def FitsU64 {α : Type} (l : List α) : Prop := l.length < 2 ^ 64

instance {α : Type} (l : List α) : Decidable (FitsU64 l) := inferInstanceAs (Decidable (_ < _))

def SizedSlots (l : List (Path × StagedEntry D)) : Prop := FitsU64 l ∧ ∀ e ∈ l, FitsU64 e.1.bytes

def SizedStaged (l : List (WorkspaceId × List (Path × StagedEntry D))) : Prop :=
  FitsU64 l ∧ ∀ e ∈ l, SizedSlots e.2

/-- The lengths in the directories of a workspace fit. -/
def SizedDirs (s : DirSet) : Prop := FitsU64 s.elems ∧ ∀ q ∈ s.elems, FitsU64 q.bytes

/-- The lengths in a merge in progress fit. -/
structure MergeInProgress.Sized (m : MergeInProgress D) : Prop where
  message : FitsU64 (strBytes m.message)
  conflicts : FitsU64 m.conflicts
  paths : ∀ c ∈ m.conflicts, FitsU64 c.path.bytes
  preWork : SizedSlots m.preWork.entries
  preDirs : SizedDirs m.preDirs

/-- Every length fits a `u64`, as the length of every machine vector does. -/
structure Persisted.Sized [LinearOrder D] (p : Persisted D) : Prop where
  registry : p.registry.Sized
  registryBytes : ∀ b, p.registry.encode = .ok b → FitsU64 b
  content : FitsU64 p.content.entries
  work : SizedStaged (stagedLists p.work)
  dirs : FitsU64 p.dirs.entries ∧ ∀ e ∈ p.dirs.entries, SizedDirs e.2
  compression : FitsU64 p.compression.entries
  consumerOffsets : FitsU64 p.consumerOffsets.entries ∧ ∀ e ∈ p.consumerOffsets.entries,
    FitsU64 (ofLex (ofLex e.1).2).1.bytes ∧ FitsU64 (ofLex (ofLex e.1).2).2.bytes
  mergeState : FitsU64 p.mergeState.entries ∧ ∀ e ∈ p.mergeState.entries, e.2.Sized
  index : SizedStaged (stagedLists p.index)
  inodes : FitsU64 p.inodes.entries ∧ ∀ e ∈ p.inodes.entries, ∀ q, e.2.path = some q → FitsU64 q.bytes
  handles : FitsU64 p.handles.entries
  protectedRefs : FitsU64 p.protectedRefs.entries ∧
    ∀ e ∈ p.protectedRefs.entries, FitsU64 (ofLex e.1).2.bytes
  streamLowWaterMarks : FitsU64 p.streamLowWaterMarks.entries ∧
    ∀ e ∈ p.streamLowWaterMarks.entries, FitsU64 (ofLex e.1).2.bytes

namespace StateCur

theorem reads_uvarint (v : UInt64) : Reads uvarint (putUvarint v) v := Wire.reads_uvarint _ _ v

theorem reads_list {α β : Type} {p : Cur β} {f : α → Bytes} {g : α → β} {l : List α} (hl : FitsU64 l)
    (h : ∀ a ∈ l, Reads p (f a) (g a)) : Reads (list p) (putList f l) (l.map g) :=
  Wire.reads_list _ _ hl h

theorem reads_list_self {α : Type} {p : Cur α} {f : α → Bytes} {l : List α} (hl : FitsU64 l)
    (h : ∀ a ∈ l, Reads p (f a) a) : Reads (list p) (putList f l) l := by
  have hr := reads_list (g := id) hl h
  rwa [List.map_id] at hr

theorem reads_u8 (b : UInt8) : Reads u8 [b] b := fun _ => rfl

theorem reads_bool (b : Bool) : Reads bool (putBool b) b := by
  cases b <;> exact fun _ => rfl

theorem reads_take16 (ns : WorkspaceId) : Reads take16 ns.bytes ns :=
  (Wire.reads_takeExact truncated ns.length_bytes).bind_pure

theorem reads_take32 (d : D) : Reads take32 (DigestCode.bytes d) d := DigestCode.reads d

theorem reads_lp {bs : Bytes} (h : FitsU64 bs) : Reads lp (putLp bs) bs := by
  refine (reads_uvarint _).bind ?_
  rw [UInt64.toNat_ofNat_of_lt' h]
  exact Wire.reads_take truncated bs

theorem reads_lpStr {s : String} (h : FitsU64 (strBytes s)) : Reads lpStr (putLp (strBytes s)) s := by
  have hs : Reads (match strOfBytes? (strBytes s) with
      | some s => pure s
      | none => throw (.corrupt "non-utf8 engine-state string") : Cur String) [] s := by
    rw [strOfBytes?_strBytes]
    exact Wire.reads_pure s
  have hr : Reads lpStr (putLp (strBytes s) ++ []) s := (reads_lp h).bind hs
  rwa [List.append_nil] at hr

theorem reads_path {p : Path} (h : FitsU64 p.bytes) : Reads path (putPath p) p := by
  have hr : Reads path (putPath p) (String.ofList p).toList := (reads_lpStr h).bind_pure
  rwa [String.toList_ofList] at hr

theorem reads_u32 (m : UInt32) : Reads u32 (putUvarint m.toUInt64) m := by
  have hr : Reads u32 (putUvarint m.toUInt64) m.toUInt64.toUInt32 := (reads_uvarint _).bind_pure
  rwa [UInt32.toUInt32_toUInt64] at hr

theorem reads_slot (slot : StagedEntry D) : Reads StateCur.slot (putSlot slot) slot := by
  cases slot with
  | file f =>
    rw [putSlot, putRoot, List.append_assoc]
    exact (reads_u8 0).bind ((reads_take32 f.contentAddr).bind (reads_u32 f.mode).bind_pure)
  | table root => exact (reads_u8 1).bind (reads_take32 root).bind_pure
  | stream root => exact (reads_u8 2).bind (reads_take32 root).bind_pure
  | timeSeries root => exact (reads_u8 3).bind (reads_take32 root).bind_pure
  | graph root => exact (reads_u8 4).bind (reads_take32 root).bind_pure
  | ledger root => exact (reads_u8 5).bind (reads_take32 root).bind_pure
  | columnar root => exact (reads_u8 6).bind (reads_take32 root).bind_pure
  | document root => exact (reads_u8 7).bind (reads_take32 root).bind_pure

theorem reads_optSlot (slot : Option (StagedEntry D)) : Reads optSlot (putOptSlot slot) slot := by
  cases slot with
  | none => exact fun _ => rfl
  | some slot => exact (reads_u8 1).bind (reads_slot slot).bind_pure

theorem reads_slots {l : List (Path × StagedEntry D)} (h : SizedSlots l) :
    Reads slots (putSlots l) l :=
  reads_list_self h.1 fun e he => (reads_path (h.2 e he)).bind (reads_slot e.2).bind_pure

theorem reads_workTree {t : WorkTree D} (h : SizedSlots t.entries) :
    Reads workTree (putSlots t.entries) t := by
  have hr : Reads workTree (putSlots t.entries) (SortedMap.ofList t.entries) :=
    (reads_slots h).bind_pure
  rwa [SortedMap.ofList_entries] at hr

theorem reads_staged {e : WorkspaceId × List (Path × StagedEntry D)} (h : SizedSlots e.2) :
    Reads staged (e.1.bytes ++ putSlots e.2) e :=
  (reads_take16 e.1).bind (reads_slots h).bind_pure

variable {l : List (WorkspaceId × List (Path × StagedEntry D))}

theorem reads_stagedLists (h : SizedStaged l) : Reads stagedLists (putStagedMap l) l :=
  reads_list_self h.1 fun e he => reads_staged (h.2 e he)

theorem reads_stagedMap (h : SizedStaged l) : Reads stagedMap (putStagedMap l) (ofStagedLists l) :=
  (reads_stagedLists h).bind_pure

theorem reads_map {K V : Type} [LinearOrder K] {p : Cur (K × V)} {f : K × V → Bytes}
    {m : SortedMap K V} (hm : FitsU64 m.entries) (h : ∀ e ∈ m.entries, Reads p (f e) e) :
    Reads (map p) (putList f m.entries) m := by
  have hr : Reads (map p) (putList f m.entries) (SortedMap.ofList m.entries) :=
    (reads_list_self hm h).bind_pure
  rwa [SortedMap.ofList_entries] at hr

theorem reads_contentPair (e : D × D) :
    Reads contentPair (DigestCode.bytes e.1 ++ DigestCode.bytes e.2) e :=
  (reads_take32 e.1).bind (reads_take32 e.2).bind_pure

theorem reads_content [LinearOrder D] {m : SortedMap D D} (h : FitsU64 m.entries) :
    Reads content (putContent m) m := reads_map h fun e _ => reads_contentPair e

theorem reads_dirSet {s : DirSet} (h : SizedDirs s) : Reads dirSet (putList putPath s.elems) s := by
  have hr : Reads dirSet (putList putPath s.elems) (SortedSet.ofList s.elems) :=
    (reads_list_self h.1 fun q hq => reads_path (h.2 q hq)).bind_pure
  rwa [SortedSet.ofList_elems] at hr

theorem reads_dirs {m : SortedMap WorkspaceId DirSet} (hm : FitsU64 m.entries)
    (h : ∀ e ∈ m.entries, SizedDirs e.2) : Reads dirs (putDirs m) m :=
  reads_map hm fun e he => (reads_take16 e.1).bind (reads_dirSet (h e he)).bind_pure

theorem fromU8_toU8 (hint : CompressionHint) : CompressionHint.fromU8 hint.toU8 = hint := by
  cases hint <;> rfl

theorem reads_compression {m : SortedMap WorkspaceId CompressionHint} (h : FitsU64 m.entries) :
    Reads compression (putCompression m) m :=
  reads_map h fun e _ => by
    have hr := (reads_u8 e.2.toU8).bind_pure (f := fun b => (e.1, CompressionHint.fromU8 b))
    rw [fromU8_toU8] at hr
    exact (reads_take16 e.1).bind hr

theorem reads_consumerOffsets {m : SortedMap (WorkspaceId ×ₗ Path ×ₗ Path) UInt64}
    (hm : FitsU64 m.entries) (h : ∀ e ∈ m.entries,
      FitsU64 (ofLex (ofLex e.1).2).1.bytes ∧ FitsU64 (ofLex (ofLex e.1).2).2.bytes) :
    Reads consumerOffsets (putConsumerOffsets m) m :=
  reads_map hm fun e he => (reads_take16 _).bind ((reads_path (h e he).1).bind
    ((reads_path (h e he).2).bind (reads_uvarint e.2).bind_pure))

theorem reads_conflict {c : MergeConflict D} (h : FitsU64 c.path.bytes) :
    Reads conflict (putConflict c) c :=
  (reads_path h).bind ((reads_optSlot c.base).bind ((reads_optSlot c.ours).bind
    (reads_optSlot c.theirs).bind_pure))

theorem reads_merge {ns : WorkspaceId} {m : MergeInProgress D} (h : m.Sized) :
    Reads merge (putMerge ns m) (ns, m) := by
  exact (reads_take16 ns).bind ((reads_take32 m.otherParent).bind ((reads_take32 m.ourHead).bind
    ((reads_lpStr h.message).bind ((reads_list_self h.conflicts fun c hc =>
      reads_conflict (h.paths c hc)).bind ((reads_workTree h.preWork).bind
        (reads_dirSet h.preDirs).bind_pure)))))

theorem reads_mergeState {m : SortedMap WorkspaceId (MergeInProgress D)} (hm : FitsU64 m.entries)
    (h : ∀ e ∈ m.entries, e.2.Sized) : Reads mergeState (putMergeState m) m :=
  reads_map hm fun e he => reads_merge (h e he)

theorem reads_optPath {p : Option Path} (h : ∀ q, p = some q → FitsU64 q.bytes) :
    Reads optPath (putOptPath p) p := by
  cases p with
  | none => exact fun _ => rfl
  | some q => exact (reads_u8 1).bind (reads_path (h q rfl)).bind_pure

theorem reads_inode {id : UInt64} {ino : Inode D} (h : ∀ q, ino.path = some q → FitsU64 q.bytes) :
    Reads inode (putInode id ino) (id, ino) :=
  (reads_uvarint id).bind ((reads_take16 ino.ns).bind ((reads_optPath h).bind
    ((reads_take32 ino.contentAddr).bind ((reads_uvarint ino.size).bind ((reads_u32 ino.mode).bind
      (reads_u32 ino.openCount).bind_pure)))))

theorem reads_openMode (mode : OpenMode) : Reads openMode [mode.toU8] mode := by
  cases mode <;> exact fun _ => rfl

theorem reads_handle (id : UInt64) (h : OpenHandle) : Reads handle (putHandle id h) (id, h) :=
  (reads_uvarint id).bind ((reads_uvarint h.inode).bind ((reads_uvarint h.offset).bind
    (reads_openMode h.mode).bind_pure))

variable (nextInode nextHandle : UInt64) {inodes : SortedMap UInt64 (Inode D)}
  {handles : SortedMap UInt64 OpenHandle} (hi : FitsU64 inodes.entries)
  (hp : ∀ e ∈ inodes.entries, ∀ q, e.2.path = some q → FitsU64 q.bytes) (hh : FitsU64 handles.entries)

include hi hp hh in
theorem reads_openFiles :
    Reads openFiles (putOpenFiles nextInode nextHandle inodes handles)
      (nextInode, nextHandle, inodes, handles) := by
  exact (reads_uvarint nextInode).bind ((reads_uvarint nextHandle).bind
    ((reads_map hi fun e he => reads_inode (hp e he)).bind
      (reads_map hh fun e _ => reads_handle e.1 e.2).bind_pure))

theorem reads_policy (p : ProtectedRefPolicy) : Reads policy (putPolicy p) p :=
  (reads_bool _).bind ((reads_bool _).bind ((reads_bool _).bind ((reads_u32 _).bind
    ((reads_bool _).bind (reads_bool _).bind_pure))))

theorem reads_protectedRefs {m : SortedMap (WorkspaceId ×ₗ Path) ProtectedRefPolicy}
    (hm : FitsU64 m.entries) (h : ∀ e ∈ m.entries, FitsU64 (ofLex e.1).2.bytes) :
    Reads protectedRefs (putProtectedRefs m) m :=
  reads_map hm fun e he =>
    (reads_take16 _).bind ((reads_path (h e he)).bind (reads_policy e.2).bind_pure)

theorem reads_streamLowWaterMarks {m : SortedMap (WorkspaceId ×ₗ Path) UInt64}
    (hm : FitsU64 m.entries) (h : ∀ e ∈ m.entries, FitsU64 (ofLex e.1).2.bytes) :
    Reads streamLowWaterMarks (putStreamLowWaterMarks m) m :=
  reads_map hm fun e he =>
    (reads_take16 _).bind ((reads_path (h e he)).bind (reads_uvarint e.2).bind_pure)

theorem reads_trailing {α : Type} {p : Cur α} {bytes : Bytes} {a : α} (h : Reads p bytes a)
    (hne : bytes ≠ []) (absent : α) : Reads (trailing absent p) bytes a := by
  intro rest
  rw [trailing, if_neg (by simp [hne])]
  exact h rest

theorem reads_skipOptionalStagedEntry (slot : Option (StagedEntry D)) :
    Reads (skipOptionalStagedEntry (D := D)) (putOptSlot slot) () := by
  cases slot with
  | none => exact fun _ => rfl
  | some slot => exact (reads_u8 1).bind (reads_slot slot).discard

theorem reads_skipConflict {c : MergeConflict D} (h : FitsU64 c.path.bytes) :
    Reads (skipConflict (D := D)) (putConflict c) () :=
  (reads_path h).bind ((reads_skipOptionalStagedEntry c.base).bind
    ((reads_skipOptionalStagedEntry c.ours).bind (reads_skipOptionalStagedEntry c.theirs)))

theorem reads_skipMerge (ns : WorkspaceId) {m : MergeInProgress D} (h : m.Sized) :
    Reads (skipMerge (D := D)) (putMerge ns m) () :=
  (reads_take16 ns).bind ((reads_take32 m.otherParent).bind ((reads_take32 m.ourHead).bind
    ((reads_lpStr h.message).bind ((reads_list h.conflicts fun c hc =>
      reads_skipConflict (h.paths c hc)).bind ((reads_slots h.preWork).bind
        (reads_list_self h.preDirs.1 fun q hq => reads_path (h.preDirs.2 q hq)).discard)))))

theorem reads_skipHandle (id : UInt64) (h : OpenHandle) : Reads skipHandle (putHandle id h) () :=
  (reads_uvarint id).bind ((reads_uvarint h.inode).bind ((reads_uvarint h.offset).bind
    (reads_u8 h.mode.toU8).discard))

include hi hp hh in
theorem reads_skipOpenFiles :
    Reads (skipOpenFiles (D := D)) (putOpenFiles nextInode nextHandle inodes handles) () :=
  (reads_uvarint nextInode).bind ((reads_uvarint nextHandle).bind
    ((reads_list_self hi fun e he => reads_inode (hp e he)).bind
      (reads_list hh fun e _ => reads_skipHandle e.1 e.2).discard))

end StateCur

/-! ## The whole state -/

section Whole

variable [LinearOrder D] {p : Persisted D}

open StateCur

theorem putUvarint_ne_nil (v : UInt64) : putUvarint v ≠ [] := by
  unfold putUvarint Wire.putGroups
  split_ifs <;> simp

theorem putList_ne_nil {α : Type} (f : α → Bytes) (l : List α) : putList f l ≠ [] := by
  simp [putList, putUvarint_ne_nil]

/-- The sections after the content map, with the slots in any order. -/
def putTail (work index : List (WorkspaceId × List (Path × StagedEntry D))) (p : Persisted D) :
    Bytes :=
  putStagedMap work ++ (putDirs p.dirs ++ (putCompression p.compression ++
    (putConsumerOffsets p.consumerOffsets ++ (putMergeState p.mergeState ++ (putStagedMap index ++
      (putOpenFiles p.nextInode p.nextHandle p.inodes p.handles ++
        (putProtectedRefs p.protectedRefs ++ putStreamLowWaterMarks p.streamLowWaterMarks)))))))

/-- **The sections after the content map are read back**, whatever the order of the slots. -/
theorem reads_importTail (hs : p.Sized)
    {work index : List (WorkspaceId × List (Path × StagedEntry D))} (hws : SizedStaged work)
    (his : SizedStaged index) (hw : ofStagedLists work = p.work) (hi : ofStagedLists index = p.index)
    (registry : Registry D) (content : SortedMap D D) :
    Reads (importTail registry content) (putTail work index p)
      { p with registry := registry, content := content } := by
  have hwork := reads_stagedMap hws
  have hindex := reads_stagedMap his
  rw [hw] at hwork
  rw [hi] at hindex
  have hfiles := reads_openFiles p.nextInode p.nextHandle hs.inodes.1 hs.inodes.2 hs.handles
  have hne : putOpenFiles p.nextInode p.nextHandle p.inodes p.handles ≠ [] := by
    simp [putOpenFiles, putUvarint_ne_nil]
  exact hwork.bind ((reads_dirs hs.dirs.1 hs.dirs.2).bind ((reads_compression hs.compression).bind
    ((reads_trailing (reads_consumerOffsets hs.consumerOffsets.1 hs.consumerOffsets.2)
      (putList_ne_nil _ _) _).bind
    ((reads_trailing (reads_mergeState hs.mergeState.1 hs.mergeState.2) (putList_ne_nil _ _) _).bind
    ((reads_trailing hindex (putList_ne_nil _ _) _).bind ((reads_trailing hfiles hne _).bind
    ((reads_trailing (reads_protectedRefs hs.protectedRefs.1 hs.protectedRefs.2)
      (putList_ne_nil _ _) _).bind
    (reads_trailing (reads_streamLowWaterMarks hs.streamLowWaterMarks.1 hs.streamLowWaterMarks.2)
      (putList_ne_nil _ _) _).bind_pure)))))))

theorem forall₂_skippers (hs : p.Sized) {registry : Bytes} (hr : FitsU64 registry) :
    List.Forall₂ (fun q bs => ∃ u, Reads q bs u) (skippers D) (sections registry p) := by
  have hmerge := reads_list (g := fun _ => ()) hs.mergeState.1 fun e he =>
    reads_skipMerge e.1 (hs.mergeState.2 e he)
  exact .cons ⟨_, (reads_lp hr).discard⟩ (.cons ⟨_, (reads_content hs.content).discard⟩
    (.cons ⟨_, (reads_stagedLists hs.work).discard⟩
    (.cons ⟨_, (reads_dirs hs.dirs.1 hs.dirs.2).discard⟩
    (.cons ⟨_, (reads_compression hs.compression).discard⟩
    (.cons ⟨_, (reads_consumerOffsets hs.consumerOffsets.1 hs.consumerOffsets.2).discard⟩
    (.cons ⟨_, hmerge.discard⟩
    (.cons ⟨_, (reads_stagedLists hs.index).discard⟩
    (.cons ⟨_, reads_skipOpenFiles _ _ hs.inodes.1 hs.inodes.2 hs.handles⟩
    (.cons ⟨_, (reads_protectedRefs hs.protectedRefs.1 hs.protectedRefs.2).discard⟩
    (.cons ⟨_, (reads_streamLowWaterMarks hs.streamLowWaterMarks.1
      hs.streamLowWaterMarks.2).discard⟩ .nil))))))))))

/-- **Exported bytes are cut into the sections they were joined from.** -/
theorem splitStateSections_exportState (hs : p.Sized) : ∃ registry, p.registry.encode = .ok registry ∧
    FitsU64 registry ∧ exportState p = .ok (sections registry p).flatten ∧
    splitStateSections D (sections registry p).flatten = .ok (sections registry p) := by
  obtain ⟨registry, _, henc, -⟩ := Registry.decode_encode_registry hs.registry
  have hfits := hs.registryBytes registry henc
  refine ⟨registry, henc, hfits, by rw [exportState, henc]; rfl, ?_⟩
  have hr := Wire.reads_spans (forall₂_skippers hs hfits) []
  rw [List.append_nil] at hr
  rw [splitStateSections, hr]
  rfl

end Whole

end UldrenLoom.Vcs
