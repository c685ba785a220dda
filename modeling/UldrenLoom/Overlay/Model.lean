import UldrenLoom.Lib.VersionLog
import UldrenLoom.Overlay.Key

/-!
# The mutable overlay

An overlay is a log of entries over an optional parent snapshot. A snapshot is a generation and the
log itself, which the overlay goes on writing to; it sees the entries up to its generation. Logs are
shared by their address in a heap.

A failed operation changes nothing.
-/

namespace UldrenLoom.Overlay

open ByteString

def tokenSchema : Bytes := strBytes "loom.mutable-overlay.owner-token.v1"

/-- The token of an entry. -/
structure OverlayOwnerToken where
  bytes : Bytes
  length : bytes.length = 32
deriving DecidableEq

inductive OverlayEntryKind where
  | value
  | tombstone
deriving Repr, DecidableEq

/-- An entry of a log, and the exported form of one. -/
structure OverlayEntry where
  generation : ℕ
  key : OverlayKey
  ownerToken : OverlayOwnerToken
  kind : OverlayEntryKind
  payload : Bytes
deriving DecidableEq

/-- The entries of an overlay with the positions of every key. -/
abbrev Log := VersionLog OverlayKey OverlayEntry OverlayEntry.key

abbrev Heap := List Log

def Heap.log (heap : Heap) (address : ℕ) : Log := heap.getD address .empty

/-- A generation of a log, over a parent if the overlay was forked. -/
inductive OverlaySnapshot where
  | root (generation log : ℕ)
  | fork (generation log : ℕ) (parent : OverlaySnapshot)
deriving DecidableEq

structure OverlayPromotionEntry where
  key : OverlayKey
  ownerScope : OverlayOwnerScope
  ownerToken : OverlayOwnerToken
  kind : OverlayEntryKind
  payload : Bytes
  generation : ℕ
deriving DecidableEq

structure OverlayPromotionSelection where
  generation : ℕ
  ownerScopes : List OverlayOwnerScope
  entries : List OverlayPromotionEntry
deriving DecidableEq

/-! ## Reads -/

def OverlayEntry.visible (generation : ℕ) (entry : OverlayEntry) : Bool :=
  entry.generation ≤ generation

def latestVisibleEntry (entries : List OverlayEntry) (history : List ℕ) (generation : ℕ) :
    Option OverlayEntry :=
  VersionLog.latest entries (OverlayEntry.visible generation) history

/-- The entry of a key that a generation of a log sees. -/
def Log.current (log : Log) (generation : ℕ) (key : OverlayKey) : Option OverlayEntry :=
  (log.index.get key).bind fun history => latestVisibleEntry log.entries history generation

/-- Put the entries of the keys in the range of a prefix that a generation of a log sees. -/
def Log.scan (log : Log) (generation : ℕ) (p : OverlayKeyPrefix)
    (entries : SortedMap OverlayKey OverlayEntry) : SortedMap OverlayKey OverlayEntry :=
  (log.index.entries.filter fun item => inRange p item.1).foldl
    (fun entries item =>
      (latestVisibleEntry log.entries item.2 generation).elim entries (entries.insert item.1))
    entries

def byKey (entries : List OverlayEntry) : SortedMap OverlayKey OverlayEntry :=
  entries.foldl (fun m entry => m.insert entry.key entry) .empty

/-- The payload of an entry, or what the base has. -/
def readEntry (entry : Option OverlayEntry)
    (baseRead : OverlayKey → Result (Option Bytes)) (key : OverlayKey) : Result (Option Bytes) :=
  match entry with
  | some ⟨_, _, _, .value, payload⟩ => .ok (some payload)
  | some ⟨_, _, _, .tombstone, _⟩ => .ok none
  | none => baseRead key

def OverlayEntry.promote (entry : OverlayEntry) (scope : OverlayOwnerScope) :
    OverlayPromotionEntry :=
  ⟨entry.key, scope, entry.ownerToken, entry.kind, entry.payload, entry.generation⟩

namespace OverlaySnapshot

variable (heap : Heap)

def generation : OverlaySnapshot → ℕ
  | root generation _ => generation
  | fork generation _ _ => generation

def currentEntry : OverlaySnapshot → OverlayKey → Option OverlayEntry
  | root generation log, key => (heap.log log).current generation key
  | fork generation log parent, key =>
    ((heap.log log).current generation key).or (parent.currentEntry key)

def readComposite (s : OverlaySnapshot) (key : OverlayKey)
    (baseRead : OverlayKey → Result (Option Bytes)) : Result (Option Bytes) :=
  readEntry (s.currentEntry heap key) baseRead key

def ownerToken (s : OverlaySnapshot) (key : OverlayKey) : Option OverlayOwnerToken :=
  (s.currentEntry heap key).map OverlayEntry.ownerToken

def entries : OverlaySnapshot → List OverlayEntry
  | root generation log => (heap.log log).entries.filter (OverlayEntry.visible generation)
  | fork generation log parent =>
    parent.entries ++ (heap.log log).entries.filter (OverlayEntry.visible generation)

def currentEntriesWithKeyPrefix (p : OverlayKeyPrefix) : OverlaySnapshot → List OverlayEntry
  | root generation log =>
    ((heap.log log).scan generation p .empty).entries.map Prod.snd
  | fork generation log parent =>
    let inherited := byKey (parent.currentEntriesWithKeyPrefix p)
    ((heap.log log).scan generation p inherited).entries.map Prod.snd

def selectEntry (generation : ℕ) (scopes : List OverlayOwnerScope)
    (latest : SortedMap OverlayKey OverlayPromotionEntry) (entry : OverlayEntry) :
    Result (SortedMap OverlayKey OverlayPromotionEntry) :=
  if generation < entry.generation then .ok latest
  else do
    match ← matchingOwnerScope scopes entry.key with
    | none => pure latest
    | some scope => pure (latest.insert entry.key (entry.promote scope))

def selectOwnerScopes (s : OverlaySnapshot) (scopes : List OverlayOwnerScope) :
    Result OverlayPromotionSelection := do
  let latest ← (s.entries heap).foldlM (selectEntry s.generation scopes) .empty
  pure ⟨s.generation, scopes, latest.entries.map Prod.snd⟩

end OverlaySnapshot

/-! ## The overlay -/

structure MutableOverlay where
  generation : ℕ
  log : ℕ
  ownerTokens : SortedMap OverlayKey OverlayOwnerToken
  parent : Option OverlaySnapshot

structure OverlayCheckpoint where
  generation : ℕ
  keys : List OverlayKey
  snapshot : OverlaySnapshot

/-- A write of a transaction: the key, the token it expects, and the entry's kind and payload. -/
structure OverlayWrite where
  key : OverlayKey
  expectedOwnerToken : Option OverlayOwnerToken
  kind : OverlayEntryKind
  payload : Bytes
deriving DecidableEq

/-- The bytes whose digest is the token of an entry. -/
def ownerTokenBytes (key : OverlayKey) (prior : Option OverlayOwnerToken)
    (kind : OverlayEntryKind) (payload : Bytes) : Bytes :=
  let priorBytes : Bytes :=
    match prior with
    | some token => 1 :: token.bytes
    | none => [0]
  let kindByte : UInt8 :=
    match kind with
    | .value => 1
    | .tombstone => 2
  tokenSchema ++ key.bytes ++ priorBytes ++ [kindByte] ++ beBytes 8 payload.length ++ payload

def OverlayWrite.entry (digest : Bytes → OverlayOwnerToken) (generation : ℕ) (w : OverlayWrite) :
    OverlayEntry :=
  ⟨generation, w.key, digest (ownerTokenBytes w.key w.expectedOwnerToken w.kind w.payload), w.kind,
    w.payload⟩

def tokenMismatch : LoomError := ⟨.conflict, "overlay owner token does not match current record"⟩

def generationOverflow : LoomError := .invalid "overlay generation overflow"

namespace MutableOverlay

/-- An overlay without entries, over the log at an address. -/
def new (log : ℕ) : MutableOverlay := ⟨0, log, .empty, none⟩

def forkFromSnapshot (s : OverlaySnapshot) (log : ℕ) : MutableOverlay :=
  ⟨s.generation, log, .empty, some s⟩

def snapshot (o : MutableOverlay) : OverlaySnapshot :=
  match o.parent with
  | none => .root o.generation o.log
  | some parent => .fork o.generation o.log parent

def checkpoint (o : MutableOverlay) : OverlayCheckpoint :=
  ⟨o.generation, o.ownerTokens.keys, o.snapshot⟩

section Reads

variable (heap : Heap) (o : MutableOverlay)

def currentEntry (key : OverlayKey) : Option OverlayEntry :=
  ((heap.log o.log).current o.generation key).or (o.parent.bind (·.currentEntry heap key))

def currentOwnerToken (key : OverlayKey) : Option OverlayOwnerToken :=
  match o.ownerTokens.get key with
  | some token => some token
  | none => o.parent.bind (·.ownerToken heap key)

def exportEntries : List OverlayEntry := o.snapshot.entries heap

def exportEntriesWithKeyPrefix (p : OverlayKeyPrefix) : List OverlayEntry :=
  let inherited :=
    match o.parent with
    | none => .empty
    | some parent => byKey (parent.currentEntriesWithKeyPrefix heap p)
  ((heap.log o.log).scan o.generation p inherited).entries.map Prod.snd

end Reads

section Writes

variable (digest : Bytes → OverlayOwnerToken) (heap : Heap) (o : MutableOverlay)

/-- Append entries, each with its token. -/
def append (entries : List OverlayEntry) (generation : ℕ) : MutableOverlay × Heap :=
  (⟨generation, o.log,
      entries.foldl (fun tokens entry => tokens.insert entry.key entry.ownerToken) o.ownerTokens,
      o.parent⟩,
    heap.modify o.log (·.pushAll entries))

def write (key : OverlayKey) (expected : Option OverlayOwnerToken) (kind : OverlayEntryKind)
    (payload : Bytes) : Result (OverlayOwnerToken × MutableOverlay × Heap) :=
  let current := o.currentOwnerToken heap key
  if current ≠ expected then .error tokenMismatch
  else if 2 ^ 64 ≤ o.generation + 1 then .error generationOverflow
  else
    let token := digest (ownerTokenBytes key current kind payload)
    .ok (token, o.append heap [⟨o.generation + 1, key, token, kind, payload⟩] (o.generation + 1))

def putValue (key : OverlayKey) (expected : Option OverlayOwnerToken) (payload : Bytes) :
    Result (OverlayOwnerToken × MutableOverlay × Heap) :=
  o.write digest heap key expected .value payload

def putTombstone (key : OverlayKey) (expected : Option OverlayOwnerToken) :
    Result (OverlayOwnerToken × MutableOverlay × Heap) :=
  o.write digest heap key expected .tombstone []

/-- Check the keys and the expected tokens of a transaction. -/
def checkWrites : SortedSet OverlayKey → List OverlayWrite → Result Unit
  | _, [] => .ok ()
  | seen, w :: writes =>
    if w.key ∈ seen then
      .error (.invalid "overlay transaction cannot write the same key twice")
    else if o.currentOwnerToken heap w.key ≠ w.expectedOwnerToken then .error tokenMismatch
    else checkWrites (seen.insert w.key) writes

def putEntriesInNextGeneration (writes : List OverlayWrite) :
    Result (List OverlayOwnerToken × MutableOverlay × Heap) :=
  if writes = [] then .ok ([], o, heap)
  else do
    o.checkWrites heap .empty writes
    if 2 ^ 64 ≤ o.generation + 1 then .error generationOverflow
    else
      let entries := writes.map (OverlayWrite.entry digest (o.generation + 1))
      .ok (entries.map OverlayEntry.ownerToken, o.append heap entries (o.generation + 1))

end Writes

section Import

/-- An overlay that is being imported: the overlay, the heap, and the generations and keys so far. -/
structure Import where
  overlay : MutableOverlay
  heap : Heap
  seen : SortedSet (ℕ ×ₗ OverlayKey)

def importEntry (state : Import) (entry : OverlayEntry) : Result Import := do
  let generation ←
    if entry.generation = 0 then
      if 2 ^ 64 ≤ state.overlay.generation + 1 then .error generationOverflow
      else .ok (state.overlay.generation + 1)
    else .ok entry.generation
  if generation < state.overlay.generation then
    .error (.invalid "overlay import entries must not decrease generations")
  else if toLex (generation, entry.key) ∈ state.seen then
    .error (.invalid "overlay import entries must not repeat a key in one generation")
  else
    let generation' := max state.overlay.generation generation
    let (overlay, heap) :=
      state.overlay.append state.heap [{ entry with generation := generation' }] generation'
    .ok ⟨overlay, heap, state.seen.insert (toLex (generation, entry.key))⟩

/-- An overlay with some entries, over a log of its own. -/
def importEntries (heap : Heap) (entries : List OverlayEntry) : Result (MutableOverlay × Heap) := do
  let state ← entries.foldlM importEntry ⟨new heap.length, heap ++ [.empty], .empty⟩
  pure (state.overlay, state.heap)

end Import

end MutableOverlay

/-! ## An overlay with its forks -/

/-- An overlay with its forks, and the snapshots and checkpoints that were taken. -/
structure World where
  heap : Heap
  overlays : List MutableOverlay
  snapshots : List OverlaySnapshot
  checkpoints : List OverlayCheckpoint

def World.start : World := ⟨[.empty], [.new 0], [], []⟩

/-- The operations; overlays and snapshots are numbered as they were made. -/
inductive Op where
  | putValue (overlay : ℕ) (key : OverlayKey) (expected : Option OverlayOwnerToken)
      (payload : Bytes)
  | putTombstone (overlay : ℕ) (key : OverlayKey) (expected : Option OverlayOwnerToken)
  | putEntriesInNextGeneration (overlay : ℕ) (writes : List OverlayWrite)
  | snapshot (overlay : ℕ)
  | checkpoint (overlay : ℕ)
  | forkFromSnapshot (snapshot : ℕ)

/-- The answers; there is none if there is no such overlay or snapshot. -/
inductive Reply where
  | absent
  | written (result : Result (List OverlayOwnerToken))
  | snapshot (s : OverlaySnapshot)
  | checkpoint (c : OverlayCheckpoint)
  | forked (overlay : ℕ)

def World.commit (w : World) (overlay : ℕ)
    (result : Result (List OverlayOwnerToken × MutableOverlay × Heap)) : Reply × World :=
  match result with
  | .error e => (.written (.error e), w)
  | .ok (tokens, o, heap) =>
    (.written (.ok tokens), { w with heap := heap, overlays := w.overlays.set overlay o })

def single (result : Result (OverlayOwnerToken × MutableOverlay × Heap)) :
    Result (List OverlayOwnerToken × MutableOverlay × Heap) :=
  result.map fun r => ([r.1], r.2)

def step (digest : Bytes → OverlayOwnerToken) (op : Op) (w : World) : Reply × World :=
  match op with
  | .putValue i key expected payload =>
    match w.overlays[i]? with
    | none => (.absent, w)
    | some o => w.commit i (single (o.putValue digest w.heap key expected payload))
  | .putTombstone i key expected =>
    match w.overlays[i]? with
    | none => (.absent, w)
    | some o => w.commit i (single (o.putTombstone digest w.heap key expected))
  | .putEntriesInNextGeneration i writes =>
    match w.overlays[i]? with
    | none => (.absent, w)
    | some o => w.commit i (o.putEntriesInNextGeneration digest w.heap writes)
  | .snapshot i =>
    match w.overlays[i]? with
    | none => (.absent, w)
    | some o => (.snapshot o.snapshot, { w with snapshots := w.snapshots ++ [o.snapshot] })
  | .checkpoint i =>
    match w.overlays[i]? with
    | none => (.absent, w)
    | some o => (.checkpoint o.checkpoint, { w with checkpoints := w.checkpoints ++ [o.checkpoint] })
  | .forkFromSnapshot j =>
    match w.snapshots[j]? with
    | none => (.absent, w)
    | some s =>
      (.forked w.overlays.length,
        { w with
          heap := w.heap ++ [.empty]
          overlays := w.overlays ++ [.forkFromSnapshot s w.heap.length] })

end UldrenLoom.Overlay
