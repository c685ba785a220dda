import UldrenLoom.Vcs.Shard
import UldrenLoom.Vcs.StateCodec

/-!
# Saving and loading the engine state

The state is written as a tree of section objects. The content map and the maps of working trees are
trees themselves, the other sections are blobs.

* **`exec_saveState`**, **`loadState_saved`**: saving stores the current state, and loading reads it
  back, with an exact index of the workspace names; `loadStateLazy_saved`.

A read of the store may fail for reasons of its own: `faults` says which ones do.
-/

set_option linter.unusedSectionVars false

namespace UldrenLoom.Vcs

open ByteString Fallible Effect Object List
open Wire (putUvarint putList)

/-! ## Names in section trees -/

def WorkspaceId.parse (value : Path) : Result WorkspaceId :=
  let hex := value.filter (· ≠ '-')
  match Hex.decode hex with
  | none => .error (.invalid ("bad workspace id: " ++ hexError hex))
  | some raw =>
    if h : raw.length = 16 then .ok ⟨raw, h⟩
    else .error (.invalid "workspace id must be 16 bytes")

theorem WorkspaceId.parse_text (id : WorkspaceId) : parse id.text = .ok id := by
  have hfilter : id.text.filter (· ≠ '-') = Hex.encode id.bytes := by
    have hsplit : id.bytes = (id.bytes.drop 0).take 4 ++ ((id.bytes.drop 4).take 2 ++
        ((id.bytes.drop 6).take 2 ++ ((id.bytes.drop 8).take 2 ++ (id.bytes.drop 10).take 6))) := by
      have hlen : (id.bytes.drop 10).take 6 = id.bytes.drop 10 :=
        take_of_length_le (by simp [id.length_bytes])
      rw [hlen, ← drop_drop (i := 2) (j := 8), take_append_drop,
        ← drop_drop (i := 2) (j := 6), take_append_drop,
        ← drop_drop (i := 2) (j := 4), take_append_drop,
        ← drop_drop (i := 4) (j := 0), take_append_drop, drop_zero]
    conv_rhs => rw [hsplit]
    simp [text, Hex.encode_append, Hex.filter_encode]
  rw [parse, hfilter, Hex.decode_encode]
  exact dif_pos id.length_bytes

theorem WorkspaceId.text_injective : Function.Injective WorkspaceId.text := by
  intro a b h
  have ha := parse_text a
  rw [h, parse_text] at ha
  exact (Except.ok.inj ha).symm

def pathName (p : Path) : Path := Hex.encode p.bytes

theorem pathName_injective : Function.Injective pathName := by
  intro p q h
  have hb : some p.bytes = some q.bytes := by
    rw [← Hex.decode_encode, ← Hex.decode_encode q.bytes]
    exact congrArg Hex.decode h
  exact String.ofList_injective (strBytes_injective (Option.some.inj hb))

def stateSectionNames : List Path :=
  ["00-registry", "01-content", "02-work", "03-dirs", "04-compression", "05-consumer-offsets",
    "06-merge-state", "07-index", "08-open-files", "09-protected-refs",
    "10-stream-low-water"].map String.toList

def registrySectionName : Path := "00-registry".toList

def contentSectionName : Path := "01-content".toList

def workSectionName : Path := "02-work".toList

def indexSectionName : Path := "07-index".toList

def treeSectionNames : List Path := [contentSectionName, workSectionName, indexSectionName]

variable {D : Type}

def sectionEntry (name : Path) (target : D) : TreeEntry D := ⟨name, .tree, target, 0o100644⟩

/-- The kind, target and mode of a slot in a section tree. -/
def treeEntryFromStagedSlot (name : Path) : StagedEntry D → TreeEntry D
  | .file f => ⟨name, .blob, f.contentAddr, f.mode⟩
  | .table root => ⟨name, .table, root, 0o100644⟩
  | .stream root => ⟨name, .stream, root, 0o100644⟩
  | .timeSeries root => ⟨name, .timeSeries, root, 0o100644⟩
  | .graph root => ⟨name, .graph, root, 0o100644⟩
  | .ledger root => ⟨name, .ledger, root, 0o100644⟩
  | .columnar root => ⟨name, .columnar, root, 0o100644⟩
  | .document root => ⟨name, .document, root, 0o100644⟩

def stagedSlotFromTreeEntry (entry : TreeEntry D) : Result (StagedEntry D) :=
  match entry.kind with
  | .blob => .ok (.file ⟨entry.target, entry.mode⟩)
  | .table => .ok (.table entry.target)
  | .stream => .ok (.stream entry.target)
  | .timeSeries => .ok (.timeSeries entry.target)
  | .graph => .ok (.graph entry.target)
  | .ledger => .ok (.ledger entry.target)
  | .columnar => .ok (.columnar entry.target)
  | .document => .ok (.document entry.target)
  | .tree | .symlink | .subloom | .treeShard | .prollyMap =>
    .error (.corrupt "staged map path entry kind")

theorem stagedSlotFromTreeEntry_of (name : Path) (slot : StagedEntry D) :
    stagedSlotFromTreeEntry (treeEntryFromStagedSlot name slot) = .ok slot := by
  cases slot <;> rfl

@[simp] theorem name_treeEntryFromStagedSlot (name : Path) (slot : StagedEntry D) :
    (treeEntryFromStagedSlot name slot).name = name := by
  cases slot <;> rfl

def pathEntry (e : Path × StagedEntry D) : TreeEntry D :=
  treeEntryFromStagedSlot (pathName e.1) e.2

variable [DigestCode D]

def contentEntry (e : D × D) : TreeEntry D := sectionEntry (digestText e.1) e.2

/-! ## Writing sections -/

section Write

variable [LinearOrder D] {hash : Stored D → D}

def contentSectionTree (bytes : Bytes) : Result (Object D) := do
  let (pairs, rest) ← StateCur.list StateCur.contentPair bytes
  if rest = [] then makeTree (pairs.map contentEntry)
  else .error (.corrupt "content section trailing bytes")

/-- Read the slots of `n` workspaces and store a tree for each. -/
def stagedMapEntries : ℕ → Bytes → Update (ContentStore hash) (List (TreeEntry D) × Bytes)
  | 0, buf => pure ([], buf)
  | n + 1, buf => do
    let (e, rest) ← liftM (StateCur.staged buf)
    let target ← putObject (← liftM (makeTree (e.2.map pathEntry)))
    let (entries, rest) ← stagedMapEntries n rest
    return (sectionEntry e.1.text target :: entries, rest)

def stagedMapSectionTree (bytes : Bytes) : Update (ContentStore hash) (Object D) := do
  let (n, buf) ← liftM (StateCur.uvarint bytes)
  let (entries, rest) ← stagedMapEntries n.toNat buf
  if rest = [] then liftM (makeTree entries)
  else throw (.corrupt "staged map section trailing bytes")

def sectionObject (name : Path) (bytes : Bytes) : Update (ContentStore hash) (Object D) :=
  if name = contentSectionName then liftM (contentSectionTree bytes)
  else if name = workSectionName ∨ name = indexSectionName then stagedMapSectionTree bytes
  else pure (.blob bytes)

/-- The objects of an exported state: the root and all objects to store. -/
def stateObjects (hash : Stored D → D) (bytes : Bytes) :
    Update (ContentStore hash) (D × List (Object D)) := do
  let parts ← liftM (splitStateSections D bytes)
  let objects ← (stateSectionNames.zip parts).mapM fun e => sectionObject e.1 e.2
  let root ← liftM (makeTree (List.zipWith sectionEntry stateSectionNames
    (objects.map fun o => hash (.object o))))
  return (hash (.object root), objects ++ [root])

end Write

/-! ## Reading sections -/

section Read

variable (read : D → Result (Object D))

def parseRegistrySection (bytes : Bytes) : Result (Registry D) := do
  let (regBytes, rest) ← StateCur.lp bytes
  if rest = [] then Registry.decode regBytes
  else .error (.corrupt "registry section trailing bytes")

def contentSectionMap [LinearOrder D] (entries : List (TreeEntry D)) : Result (SortedMap D D) := do
  return SortedMap.ofList (← entries.mapM fun entry => do
    if entry.kind ≠ .tree then .error (.corrupt "content section entry kind")
    else
      let contentAddr ← parseDigest entry.name
      return (contentAddr, entry.target))

def pathEntryBytes (entry : TreeEntry D) : Result Bytes :=
  match Hex.decode entry.name with
  | none => .error (.corrupt "staged map path name is not hex")
  | some path => do
    let slot ← stagedSlotFromTreeEntry entry
    return putLp path ++ putSlot slot

def workspaceEntryBytes (entry : TreeEntry D) : Result Bytes :=
  if entry.kind ≠ .tree then .error (.corrupt "staged map workspace entry kind")
  else do
    let ns ← WorkspaceId.parse entry.name
    match ← read entry.target with
    | .tree pathEntries =>
      let slots ← pathEntries.mapM pathEntryBytes
      return ns.bytes ++ (putUvarint (UInt64.ofNat pathEntries.length) ++ slots.flatten)
    | _ => .error (.corrupt "staged map workspace target")

def stagedMapSectionBytes (entries : List (TreeEntry D)) : Result Bytes := do
  let parts ← entries.mapM (workspaceEntryBytes read)
  return putUvarint (UInt64.ofNat entries.length) ++ parts.flatten

/-- What has been read of the sections. -/
structure SectionsRead (D : Type) [LinearOrder D] where
  registry : Option (Registry D)
  content : Option (SortedMap D D)
  tail : Bytes

variable [LinearOrder D]

def readSection (acc : SectionsRead D) (entry : TreeEntry D) (expected : Path) :
    Result (SectionsRead D) :=
  if entry.name ≠ expected then .error (.corrupt "engine-state section name")
  else do
    match ← read entry.target with
    | .blob bytes =>
      if entry.name = registrySectionName then
        return { acc with registry := some (← parseRegistrySection bytes) }
      else if entry.name ≠ contentSectionName ∧ entry.name ≠ workSectionName ∧
          entry.name ≠ indexSectionName then
        return { acc with tail := acc.tail ++ bytes }
      else unsupported .blob
    | .tree entries =>
      if entry.name = workSectionName ∨ entry.name = indexSectionName then
        return { acc with tail := acc.tail ++ (← stagedMapSectionBytes read entries) }
      else if entry.name = contentSectionName then
        return { acc with content := some (← contentSectionMap entries) }
      else unsupported .tree
    | o => unsupported o.objectType
where
  unsupported (t : ObjectType) : Result (SectionsRead D) :=
    .error (.corrupt ("engine-state section has unsupported root: " ++ t.text))

/-- Check the names of the sections; states without low-water marks have ten. -/
def validateStateSectionEntries (entries : List (TreeEntry D)) : Result Unit :=
  if entries.length ≠ 10 ∧ entries.length ≠ stateSectionNames.length then
    .error (.corrupt "engine-state section count")
  else if (entries.zip stateSectionNames).any fun e => e.1.name ≠ e.2 then
    .error (.corrupt "engine-state section name")
  else .ok ()

def readSections (entries : List (TreeEntry D)) : Result (Persisted D) := do
  validateStateSectionEntries entries
  let acc ← (entries.zip stateSectionNames).foldlM (fun acc e => readSection read acc e.1 e.2)
    ⟨none, none, []⟩
  match acc.registry, acc.content with
  | none, _ => .error (.corrupt "engine-state registry section missing")
  | some _, none => .error (.corrupt "engine-state content section missing")
  | some registry, some content => do
    let (p, _) ← importTail registry content acc.tail
    return p

end Read

/-! ## The engine -/

variable [LinearOrder D] {hash : Stored D → D}

def linkedPaths (inodes : SortedMap UInt64 (Inode D)) : SortedMap (WorkspaceId ×ₗ Path) UInt64 :=
  SortedMap.ofList (inodes.entries.filterMap fun e => e.2.path.map fun p => (toLex (e.2.ns, p), e.1))

namespace Loom

def persisted (L : Loom hash) : Persisted D where
  registry := L.registry
  content := L.heap.content
  work := L.work
  dirs := L.dirs
  compression := L.compression
  consumerOffsets := L.consumerOffsets
  mergeState := L.mergeState
  index := L.index
  nextInode := L.nextInode
  nextHandle := L.nextHandle
  inodes := L.inodes
  handles := L.handles
  protectedRefs := L.protectedRefs
  streamLowWaterMarks := L.streamLowWaterMarks

def restore (L : Loom hash) (p : Persisted D) : Loom hash where
  heap := ⟨L.heap.store, p.content⟩
  registry := p.registry
  lazyStateSections := none
  work := p.work
  dirs := p.dirs
  compression := p.compression
  consumerOffsets := p.consumerOffsets
  streamLowWaterMarks := p.streamLowWaterMarks
  mergeState := p.mergeState
  index := p.index
  inodes := p.inodes
  handles := p.handles
  pathToInode := linkedPaths p.inodes
  nextInode := p.nextInode
  nextHandle := p.nextHandle
  protectedRefs := p.protectedRefs

variable [ToString D]

/-- Read an object, unless the read fails. -/
def readObject (faults : D → Option LoomError) (L : Loom hash) (d : D) : Result (Object D) :=
  match faults d with
  | some e => .error e
  | none => getObject L.heap.store d

def importState (bytes : Bytes) : Update (Loom hash) Unit := do
  let p ← liftM (parseState bytes)
  modify (·.restore p)

variable (faults : D → Option LoomError)

def loadStateSections (entries : List (TreeEntry D)) : Update (Loom hash) Unit := do
  let L ← get
  let p ← liftM (readSections (L.readObject faults) entries)
  modify (·.restore p)

def loadState (root : D) : Update (Loom hash) Unit := do
  let L ← get
  match ← liftM (L.readObject faults root) with
  | .tree entries => loadStateSections faults entries
  | o => throw (.corrupt ("engine-state root is not a section Tree: " ++ o.objectType.text))

/-- Load the registry, and keep the sections for later. -/
def loadStateLazy (root : D) : Update (Loom hash) Unit := do
  let L ← get
  match ← liftM (L.readObject faults root) with
  | .tree entries =>
    liftM (validateStateSectionEntries entries)
    match entries with
    | [] => throw (.corrupt "engine-state section count")
    | entry :: _ =>
      match ← liftM (L.readObject faults entry.target) with
      | .blob bytes =>
        let registry ← liftM (parseRegistrySection bytes)
        modify fun L => { L with registry := registry, lazyStateSections := some entries }
      | _ => throw (.corrupt "engine-state registry section has unsupported root")
  | _ => throw (.corrupt "engine-state root is not a section Tree")

/-- Load the pending sections. They are given up before they are read. -/
def ensureFullStateLoaded : Update (Loom hash) Unit := do
  let L ← get
  match L.lazyStateSections with
  | none => pure ()
  | some entries =>
    modify fun L => { L with lazyStateSections := none }
    loadStateSections faults entries

def saveStateObjects : Update (Loom hash) (D × List (Object D)) := do
  ensureFullStateLoaded faults
  let L ← get
  let bytes ← liftM (exportState L.persisted)
  onStore (stateObjects hash bytes)

def saveState : Update (Loom hash) D := do
  let (root, objects) ← saveStateObjects faults
  onStore (objects.forM fun o => discard (putObject o))
  return root

end Loom

/-! ## The stored form -/

section Form

def pathTree (t : WorkTree D) : Object D := .tree (sortEntries (t.entries.map pathEntry))

def contentTree (m : SortedMap D D) : Object D := .tree (sortEntries (m.entries.map contentEntry))

variable (hash)

def workspaceEntry (e : WorkspaceId × WorkTree D) : TreeEntry D :=
  sectionEntry e.1.text (hash (.object (pathTree e.2)))

def stagedTree (m : SortedMap WorkspaceId (WorkTree D)) : Object D :=
  .tree (sortEntries (m.entries.map (workspaceEntry hash)))

variable (registry : Bytes)

def sectionObjects (p : Persisted D) : List (Object D) :=
  [.blob (putRegistry registry), contentTree p.content, stagedTree hash p.work,
    .blob (putDirs p.dirs), .blob (putCompression p.compression),
    .blob (putConsumerOffsets p.consumerOffsets), .blob (putMergeState p.mergeState),
    stagedTree hash p.index, .blob (putOpenFiles p.nextInode p.nextHandle p.inodes p.handles),
    .blob (putProtectedRefs p.protectedRefs), .blob (putStreamLowWaterMarks p.streamLowWaterMarks)]

def rootEntries (p : Persisted D) : List (TreeEntry D) :=
  List.zipWith sectionEntry stateSectionNames
    ((sectionObjects hash registry p).map fun o => hash (.object o))

def rootTree (p : Persisted D) : Object D := .tree (rootEntries hash registry p)

variable {hash}

theorem canonical_zipWith {names : List Path} (h : names.Pairwise (· < ·)) (targets : List D) :
    Canonical (List.zipWith sectionEntry names targets) := by
  induction names generalizing targets with
  | nil => exact List.Pairwise.nil
  | cons n names ih =>
    cases targets with
    | nil => exact List.Pairwise.nil
    | cons t targets =>
      obtain ⟨hn, h⟩ := pairwise_cons.mp h
      refine pairwise_cons.mpr ⟨fun e he => ?_, ih h targets⟩
      rw [← map_uncurry_zip_eq_zipWith] at he
      obtain ⟨q, hq, rfl⟩ := mem_map.mp he
      exact hn q.1 (of_mem_zip hq).1

theorem nodup_pathEntries (t : WorkTree D) :
    ((t.entries.map pathEntry).map TreeEntry.name).Nodup := by
  rw [map_map, nodup_iff_pairwise_ne, pairwise_map]
  refine t.ascending.imp fun {a b} hab he => hab.ne (pathName_injective ?_)
  simpa [pathEntry] using he

theorem nodup_contentEntries (m : SortedMap D D) :
    ((m.entries.map contentEntry).map TreeEntry.name).Nodup := by
  rw [map_map, nodup_iff_pairwise_ne, pairwise_map]
  exact m.ascending.imp fun {a b} hab he => hab.ne (digestText_injective he)

theorem nodup_workspaceEntries (m : SortedMap WorkspaceId (WorkTree D)) :
    ((m.entries.map (workspaceEntry hash)).map TreeEntry.name).Nodup := by
  rw [map_map, nodup_iff_pairwise_ne, pairwise_map]
  exact m.ascending.imp fun {a b} hab he => hab.ne (WorkspaceId.text_injective he)

theorem decode_sectionObjects {registry : Bytes} {p : Persisted D} {o : Object D}
    (h : o ∈ sectionObjects hash registry p) : decode (.object o) = .ok o := by
  simp only [sectionObjects, mem_cons, not_mem_nil, or_false] at h
  rcases h with rfl | rfl | rfl | rfl | rfl | rfl | rfl | rfl | rfl | rfl | rfl
  case inr.inl => exact decode_sortEntries (nodup_contentEntries p.content)
  case inr.inr.inl => exact decode_sortEntries (nodup_workspaceEntries p.work)
  case inr.inr.inr.inr.inr.inr.inr.inl => exact decode_sortEntries (nodup_workspaceEntries p.index)
  all_goals rfl

theorem pairwise_stateSectionNames : stateSectionNames.Pairwise (· < ·) := by decide

theorem canonical_rootEntries (p : Persisted D) :
    Canonical (rootEntries hash registry p) := canonical_zipWith pairwise_stateSectionNames _

theorem decode_rootTree (p : Persisted D) :
    decode (.object (rootTree hash registry p)) = .ok (rootTree hash registry p) := by
  rw [rootTree, decode, if_pos (canonical_rootEntries registry p)]

theorem makeTree_rootEntries (p : Persisted D) :
    makeTree (rootEntries hash registry p) = .ok (rootTree hash registry p) :=
  makeTree_of_canonical (canonical_rootEntries registry p)

variable [ToString D]

/-- A store holds an object. -/
def Stores (s : ContentStore hash) (o : Object D) : Prop := getObject s (hash (.object o)) = .ok o

theorem Stores.mono {s t : ContentStore hash} {o : Object D} (h : Stores s o) (hle : s ≤ t) :
    Stores t o := getObject_mono hle h

/-- A store holds all objects of a written state. -/
structure Saved (s : ContentStore hash) (registry : Bytes) (p : Persisted D) : Prop where
  root : Stores s (rootTree hash registry p)
  sections : ∀ o ∈ sectionObjects hash registry p, Stores s o
  work : ∀ e ∈ p.work.entries, Stores s (pathTree e.2)
  index : ∀ e ∈ p.index.entries, Stores s (pathTree e.2)

theorem Saved.mono {s t : ContentStore hash} {registry : Bytes} {p : Persisted D}
    (h : Saved s registry p) (hle : s ≤ t) : Saved t registry p :=
  ⟨h.root.mono hle, fun o ho => (h.sections o ho).mono hle, fun e he => (h.work e he).mono hle,
    fun e he => (h.index e he).mono hle⟩

end Form

/-! ## Writing stores the state -/

section Save

theorem contentSectionTree_putContent {m : SortedMap D D} (h : FitsU64 m.entries) :
    contentSectionTree (putContent m) = .ok (contentTree m) := by
  have hr := StateCur.reads_list_self h (fun e _ => StateCur.reads_contentPair e) []
  rw [append_nil] at hr
  rw [contentSectionTree, putContent, hr, ok_bind]
  exact makeTree_of_nodup (nodup_contentEntries m)

variable [ToString D] (hinj : Function.Injective hash)

include hinj in
theorem exec_stagedMapEntries {es : List (WorkspaceId × WorkTree D)}
    (h : ∀ e ∈ es, SizedSlots e.2.entries) (rest : Bytes) (s : ContentStore hash) :
    ∃ s', exec (stagedMapEntries es.length
        ((es.flatMap fun e => e.1.bytes ++ putSlots e.2.entries) ++ rest)) s =
        (.ok (es.map (workspaceEntry hash), rest), s') ∧
      s ≤ s' ∧ ∀ e ∈ es, Stores s' (pathTree e.2) := by
  induction es generalizing s with
  | nil => exact ⟨s, rfl, le_rfl, by simp⟩
  | cons e es ih =>
    have hread := StateCur.reads_staged (e := (e.1, e.2.entries)) (h e mem_cons_self)
      ((es.flatMap fun e => e.1.bytes ++ putSlots e.2.entries) ++ rest)
    have hmake : makeTree (e.2.entries.map pathEntry) = .ok (pathTree e.2) :=
      makeTree_of_nodup (nodup_pathEntries e.2)
    obtain ⟨s', hexec, hle, hstores⟩ := ih (fun e he => h e (mem_cons_of_mem _ he))
      (s.put (.object (pathTree e.2)))
    have hput : Stores (s.put (.object (pathTree e.2))) (pathTree e.2) :=
      getObject_put hinj s (decode_sortEntries (nodup_pathEntries e.2))
    refine ⟨s', ?_, (ContentStore.le_put _ _).trans hle, ?_⟩
    · rw [length_cons, flatMap_cons, append_assoc, stagedMapEntries, hread]
      refine (exec_bind_of_ok (exec_lift _ s) _).trans ?_
      dsimp only
      rw [hmake]
      refine (exec_bind_of_ok (exec_lift _ s) _).trans ?_
      refine (exec_bind_of_ok (exec_putObject _ s) _).trans ?_
      rw [exec_bind_of_ok hexec]
      rfl
    · exact forall_mem_cons.mpr ⟨hput.mono hle, hstores⟩

include hinj in
theorem exec_stagedMapSectionTree {m : SortedMap WorkspaceId (WorkTree D)}
    (h : SizedStaged (stagedLists m)) (s : ContentStore hash) :
    ∃ s', exec (stagedMapSectionTree (putStagedMap (stagedLists m))) s =
        (.ok (stagedTree hash m), s') ∧ s ≤ s' ∧ ∀ e ∈ m.entries, Stores s' (pathTree e.2) := by
  have hsized : ∀ e ∈ m.entries, SizedSlots e.2.entries := fun e he =>
    h.2 _ (mem_map_of_mem he)
  obtain ⟨s', hexec, hle, hstores⟩ := exec_stagedMapEntries hinj hsized [] s
  refine ⟨s', ?_, hle, hstores⟩
  have hlen : (UInt64.ofNat (stagedLists m).length).toNat = m.entries.length := by
    rw [UInt64.toNat_ofNat_of_lt' h.1, stagedLists, length_map]
  have hbytes : (stagedLists m).flatMap (fun e => e.1.bytes ++ putSlots e.2) =
      (m.entries.flatMap fun e => e.1.bytes ++ putSlots e.2.entries) ++ [] := by
    rw [stagedLists, flatMap_map, append_nil]
  rw [stagedMapSectionTree, putStagedMap, putList, StateCur.reads_uvarint]
  refine (exec_bind_of_ok (exec_lift _ s) _).trans ?_
  dsimp only
  rw [hlen, hbytes]
  refine (exec_bind_of_ok hexec _).trans ?_
  rw [if_pos rfl]
  exact Prod.ext (makeTree_of_nodup (nodup_workspaceEntries m)) rfl

theorem exec_mapM_blob_cons {name : Path} {bytes : Bytes} {l : List (Path × Bytes)}
    {os : List (Object D)} {s s' : ContentStore hash} (h : name ∉ treeSectionNames)
    (hl : exec (l.mapM fun e => sectionObject e.1 e.2) s = (.ok os, s')) :
    exec (((name, bytes) :: l).mapM fun e => sectionObject e.1 e.2) s =
      (.ok (.blob bytes :: os), s') := by
  simp only [treeSectionNames, mem_cons, not_mem_nil, or_false, not_or] at h
  refine exec_mapM_cons ?_ hl
  rw [sectionObject, if_neg h.1, if_neg (not_or.mpr h.2)]
  rfl

include hinj in
theorem exec_stateObjects {p : Persisted D} (hs : p.Sized) {registry : Bytes}
    (hsplit : splitStateSections D (sections registry p).flatten = .ok (sections registry p))
    (s : ContentStore hash) :
    ∃ s', exec (stateObjects hash (sections registry p).flatten) s =
        (.ok (hash (.object (rootTree hash registry p)),
          sectionObjects hash registry p ++ [rootTree hash registry p]), s') ∧ s ≤ s' ∧
      (∀ e ∈ p.work.entries, Stores s' (pathTree e.2)) ∧
      ∀ e ∈ p.index.entries, Stores s' (pathTree e.2) := by
  have hcontent : exec (sectionObject contentSectionName (putContent p.content)) s =
      (.ok (contentTree p.content), s) := by
    rw [sectionObject, if_pos rfl, contentSectionTree_putContent hs.content]
    rfl
  obtain ⟨s1, hwork, hle1, hstored1⟩ := exec_stagedMapSectionTree hinj hs.work s
  obtain ⟨s2, hindex, hle2, hstored2⟩ := exec_stagedMapSectionTree hinj hs.index s1
  have hobjects : exec ((stateSectionNames.zip (sections registry p)).mapM fun e =>
      sectionObject e.1 e.2) s = (.ok (sectionObjects hash registry p), s2) := by
    refine exec_mapM_blob_cons (by decide) ?_
    refine exec_mapM_cons hcontent (exec_mapM_cons hwork ?_)
    iterate 4 refine exec_mapM_blob_cons (by decide) ?_
    refine exec_mapM_cons hindex ?_
    iterate 3 refine exec_mapM_blob_cons (by decide) ?_
    rfl
  have hmake : makeTree (List.zipWith sectionEntry stateSectionNames
      ((sectionObjects hash registry p).map fun o => hash (.object o))) =
      .ok (rootTree hash registry p) := makeTree_rootEntries registry p
  refine ⟨s2, ?_, hle1.trans hle2, fun e he => (hstored1 e he).mono hle2, hstored2⟩
  rw [stateObjects, hsplit]
  refine (exec_bind_of_ok (exec_lift _ s) _).trans ?_
  refine (exec_bind_of_ok hobjects _).trans ?_
  rw [hmake]
  rfl

include hinj in
theorem exec_putAll (os : List (Object D)) (h : ∀ o ∈ os, decode (.object o) = .ok o)
    (s : ContentStore hash) : ∃ s', exec (os.forM fun o => discard (putObject o)) s = (.ok (), s') ∧
      s ≤ s' ∧ ∀ o ∈ os, Stores s' o := by
  induction os generalizing s with
  | nil => exact ⟨s, rfl, le_rfl, by simp⟩
  | cons o os ih =>
    obtain ⟨s', hexec, hle, hstores⟩ := ih (fun o ho => h o (mem_cons_of_mem _ ho))
      (s.put (.object o))
    have hput : Stores (s.put (.object o)) o := getObject_put hinj s (h o mem_cons_self)
    refine ⟨s', ?_, (ContentStore.le_put _ _).trans hle, ?_⟩
    · exact (exec_bind_of_ok rfl _).trans hexec
    · exact forall_mem_cons.mpr ⟨hput.mono hle, hstores⟩

end Save

namespace Loom

variable [ToString D] (faults : D → Option LoomError)

/-- The state of an engine, with the pending sections of a lazy one read. -/
def current (L : Loom hash) : Result (Persisted D) :=
  match L.lazyStateSections with
  | none => .ok L.persisted
  | some entries => readSections (L.readObject faults) entries

theorem exec_loadStateSections (entries : List (TreeEntry D)) (L : Loom hash) :
    exec (loadStateSections faults entries) L =
      match readSections (L.readObject faults) entries with
      | .ok p => (.ok (), L.restore p)
      | .error e => (.error e, L) := by
  rw [loadStateSections, exec_get_bind, exec_lift_bind]
  cases readSections (L.readObject faults) entries <;> rfl

/-- **Materialising loads the current state**, and gives up the pending sections even if it fails. -/
theorem exec_ensureFullStateLoaded (L : Loom hash) : exec (ensureFullStateLoaded faults) L =
      match L.current faults with
      | .ok p => (.ok (), if L.lazyStateSections = none then L else L.restore p)
      | .error e => (.error e, { L with lazyStateSections := none }) := by
  rw [ensureFullStateLoaded, exec_get_bind, current]
  cases hl : L.lazyStateSections with
  | none => rfl
  | some entries =>
    have hread : readSections (readObject faults { L with lazyStateSections := none }) entries =
        readSections (L.readObject faults) entries := rfl
    rw [exec_modify_bind, exec_loadStateSections, hread]
    dsimp only
    cases readSections (L.readObject faults) entries <;> rfl

/-- **Saving stores the current state.** -/
theorem exec_saveState (hinj : Function.Injective hash) {L : Loom hash} {p : Persisted D}
    (hcur : L.current faults = .ok p) (hs : p.Sized) : ∃ registry L₁,
      p.registry.encode = .ok registry ∧
      exec (saveState faults) L = (.ok (hash (.object (rootTree hash registry p))), L₁) ∧
      L.heap.store ≤ L₁.heap.store ∧ L₁.persisted = p ∧ Saved L₁.heap.store registry p := by
  obtain ⟨L₀, hens, hp, hstore⟩ : ∃ L₀, exec (ensureFullStateLoaded faults) L = (.ok (), L₀) ∧
      L₀.persisted = p ∧ L₀.heap.store = L.heap.store := by
    rw [exec_ensureFullStateLoaded, hcur]
    refine ⟨_, rfl, ?_, ?_⟩
    · split_ifs with hl
      · rw [current, hl] at hcur
        exact Except.ok.inj hcur
      · rfl
    · split_ifs <;> rfl
  obtain ⟨registry, henc, -, hexport, hsplit⟩ := splitStateSections_exportState hs
  obtain ⟨s1, hobjects, hle1, hwork, hindex⟩ := exec_stateObjects hinj hs hsplit L₀.heap.store
  obtain ⟨s2, hputs, hle2, hstored⟩ := exec_putAll hinj
    (sectionObjects hash registry p ++ [rootTree hash registry p]) (forall_mem_append.mpr
      ⟨fun o => decode_sectionObjects, by simp [decode_rootTree]⟩) s1
  refine ⟨registry, { L₀ with heap := { L₀.heap with store := s2 } }, henc, ?_,
    hstore ▸ hle1.trans hle2, hp, ?_, fun o ho => hstored o (by simp [ho]),
    fun e he => (hwork e he).mono hle2, fun e he => (hindex e he).mono hle2⟩
  · have hsave : exec (saveStateObjects faults) L = (.ok (hash (.object (rootTree hash registry p)),
        sectionObjects hash registry p ++ [rootTree hash registry p]),
        { L₀ with heap := { L₀.heap with store := s1 } }) := by
      rw [saveStateObjects, exec_bind_of_ok hens, exec_get_bind, hp, hexport, exec_lift_bind]
      dsimp only
      rw [exec_onStore, hobjects]
    rw [saveState, exec_bind_of_ok hsave]
    have hput : exec (onStore ((sectionObjects hash registry p ++ [rootTree hash registry p]).forM
        fun o => discard (putObject o))) { L₀ with heap := { L₀.heap with store := s1 } } =
        (.ok (), { L₀ with heap := { L₀.heap with store := s2 } }) := by
      rw [exec_onStore, hputs]
    rw [exec_bind_of_ok hput]
    rfl
  · exact hstored _ (by simp)

end Loom

/-! ## Loading reads the state back -/

section Load

/-- The slots of a workspace in the order of their names. -/
def slotsInOrder (t : WorkTree D) : List (Path × StagedEntry D) :=
  t.entries.insertionSort fun a b => (pathEntry a).name ≤ (pathEntry b).name

/-- The slots of all workspaces in the order of their names. -/
def stagedInOrder (hash : Stored D → D) (m : SortedMap WorkspaceId (WorkTree D)) :
    List (WorkspaceId × List (Path × StagedEntry D)) :=
  (m.entries.insertionSort fun a b => (workspaceEntry hash a).name ≤ (workspaceEntry hash b).name).map
    fun e => (e.1, slotsInOrder e.2)

theorem perm_slotsInOrder (t : WorkTree D) : (slotsInOrder t).Perm t.entries :=
  perm_insertionSort _ _

theorem ofStagedLists_stagedInOrder (m : SortedMap WorkspaceId (WorkTree D)) :
    StateCur.ofStagedLists (stagedInOrder hash m) = m := by
  rw [StateCur.ofStagedLists, stagedInOrder, map_map]
  refine SortedMap.ofList_of_perm ?_
  have hid : (fun e : WorkspaceId × WorkTree D => (e.1, SortedMap.ofList (slotsInOrder e.2))) = id := by
    funext e
    rw [SortedMap.ofList_of_perm (perm_slotsInOrder e.2), id]
  have hcomp : ((fun e : WorkspaceId × List (Path × StagedEntry D) =>
      (e.1, SortedMap.ofList e.2)) ∘ fun e : WorkspaceId × WorkTree D => (e.1, slotsInOrder e.2)) =
      id := hid
  rw [hcomp, map_id]
  exact perm_insertionSort _ _

variable (hash) in
theorem sized_stagedInOrder {m : SortedMap WorkspaceId (WorkTree D)}
    (h : SizedStaged (stagedLists m)) : SizedStaged (stagedInOrder hash m) := by
  refine ⟨?_, fun e he => ?_⟩
  · rw [FitsU64, stagedInOrder, length_map, length_insertionSort]
    simpa [stagedLists, FitsU64] using h.1
  · obtain ⟨e', he', rfl⟩ := mem_map.mp he
    have hmem : e' ∈ m.entries := (perm_insertionSort _ _).mem_iff.mp he'
    obtain ⟨hlen, hpaths⟩ := h.2 _ (mem_map_of_mem hmem)
    refine ⟨?_, fun q hq => hpaths q ((perm_slotsInOrder e'.2).mem_iff.mp hq)⟩
    rw [FitsU64, (perm_slotsInOrder e'.2).length_eq]
    exact hlen

theorem pathEntryBytes_pathEntry (e : Path × StagedEntry D) :
    pathEntryBytes (pathEntry e) = .ok (putPath e.1 ++ putSlot e.2) := by
  rw [pathEntryBytes, pathEntry, name_treeEntryFromStagedSlot, pathName, Hex.decode_encode,
    stagedSlotFromTreeEntry_of]
  rfl

variable {read : D → Result (Object D)}

theorem workspaceEntryBytes_of {e : WorkspaceId × WorkTree D}
    (h : read (hash (.object (pathTree e.2))) = .ok (pathTree e.2)) :
    workspaceEntryBytes read (workspaceEntry hash e) =
      .ok (e.1.bytes ++ putSlots (slotsInOrder e.2)) := by
  have htree : pathTree e.2 = .tree ((slotsInOrder e.2).map pathEntry) := by
    rw [pathTree, sortEntries_map, slotsInOrder]
  have hslots : ((slotsInOrder e.2).map pathEntry).mapM pathEntryBytes = .ok _ :=
    mapM_map_ok fun z _ => pathEntryBytes_pathEntry z
  rw [workspaceEntryBytes, if_neg (by simp [workspaceEntry, sectionEntry])]
  change (WorkspaceId.parse e.1.text >>= _) = _
  rw [WorkspaceId.parse_text, ok_bind]
  change (read (hash (.object (pathTree e.2))) >>= _) = _
  rw [h, ok_bind, htree]
  dsimp only
  rw [hslots, ok_bind, length_map, ← flatMap_def]
  rfl

theorem stagedMapSectionBytes_of {m : SortedMap WorkspaceId (WorkTree D)}
    (h : ∀ e ∈ m.entries, read (hash (.object (pathTree e.2))) = .ok (pathTree e.2)) :
    stagedMapSectionBytes read (sortEntries (m.entries.map (workspaceEntry hash))) =
      .ok (putStagedMap (stagedInOrder hash m)) := by
  have hparts : ((m.entries.insertionSort fun a b => (workspaceEntry hash a).name ≤
      (workspaceEntry hash b).name).map (workspaceEntry hash)).mapM (workspaceEntryBytes read) =
      .ok _ := mapM_map_ok fun e he =>
    workspaceEntryBytes_of (h e ((perm_insertionSort _ _).mem_iff.mp he))
  rw [stagedMapSectionBytes, sortEntries_map, hparts, ok_bind, putStagedMap, stagedInOrder, putList,
    length_map, length_map, flatMap_map, ← flatMap_def]
  rfl

theorem contentSectionMap_of (m : SortedMap D D) :
    contentSectionMap (sortEntries (m.entries.map contentEntry)) = .ok m := by
  rw [contentSectionMap, sortEntries_map]
  rw [mapM_of_ok (m.entries.insertionSort fun a b => (contentEntry a).name ≤ (contentEntry b).name)
    (g := contentEntry) fun e _ => ?_, ok_bind]
  · rw [SortedMap.ofList_of_perm (perm_insertionSort _ _)]
    rfl
  · change (parseDigest (digestText e.1) >>= _) = _
    rw [parseDigest_digestText]
    rfl

variable {bytes : Bytes}

theorem parseRegistrySection_putRegistry {reg : Registry D} (h : FitsU64 bytes)
    (hdec : Registry.decode bytes = .ok reg) : parseRegistrySection (putRegistry bytes) = .ok reg := by
  have hlp := StateCur.reads_lp h []
  rw [append_nil] at hlp
  rw [parseRegistrySection, putRegistry, hlp, ok_bind]
  exact hdec

variable {acc : SectionsRead D} {target : D}

theorem readSection_blob {name : Path} (hread : read target = .ok (.blob bytes))
    (hname : name ≠ registrySectionName) (h : name ∉ treeSectionNames) :
    readSection read acc (sectionEntry name target) name =
      .ok { acc with tail := acc.tail ++ bytes } := by
  simp only [treeSectionNames, mem_cons, not_mem_nil, or_false, not_or] at h
  simp [readSection, sectionEntry, hread, hname, h, pure, Except.pure]

theorem readSection_staged {name : Path} {entries : List (TreeEntry D)}
    (hread : read target = .ok (.tree entries))
    (hname : name = workSectionName ∨ name = indexSectionName)
    (h : stagedMapSectionBytes read entries = .ok bytes) :
    readSection read acc (sectionEntry name target) name =
      .ok { acc with tail := acc.tail ++ bytes } := by
  simp [readSection, sectionEntry, hread, hname, h]

theorem readSection_registry {reg : Registry D} (hread : read target = .ok (.blob bytes))
    (h : parseRegistrySection bytes = .ok reg) :
    readSection read acc (sectionEntry registrySectionName target) registrySectionName =
      .ok { acc with registry := some reg } := by
  simp [readSection, sectionEntry, hread, h]

theorem readSection_content {m : SortedMap D D} (hread : read target = .ok (contentTree m)) :
    readSection read acc (sectionEntry contentSectionName target) contentSectionName =
      .ok { acc with content := some m } := by
  have hname : ¬ (contentSectionName = workSectionName ∨ contentSectionName = indexSectionName) := by
    decide
  simp [readSection, sectionEntry, hread, contentTree, hname, contentSectionMap_of]

variable (read) in
/-- **The sections of a stored state are read back**, with an exact index of the names. -/
theorem readSections_of {p : Persisted D} (hs : p.Sized) {registry : Bytes}
    (henc : p.registry.encode = .ok registry)
    (hobjects : ∀ o ∈ sectionObjects hash registry p, read (hash (.object o)) = .ok o)
    (hwork : ∀ e ∈ p.work.entries, read (hash (.object (pathTree e.2))) = .ok (pathTree e.2))
    (hindex : ∀ e ∈ p.index.entries, read (hash (.object (pathTree e.2))) = .ok (pathTree e.2)) :
    ∃ reg, readSections read (rootEntries hash registry p) = .ok { p with registry := reg } ∧
      reg.byId = p.registry.byId ∧ reg.Exact := by
  obtain ⟨b, reg, hb, hdec, hid, hexact⟩ := Registry.decode_encode_registry hs.registry
  cases henc.symm.trans hb
  refine ⟨reg, ?_, hid, hexact⟩
  have hreg := parseRegistrySection_putRegistry (hs.registryBytes registry henc) hdec
  have hfold : ((rootEntries hash registry p).zip stateSectionNames).foldlM
      (fun acc e => readSection read acc e.1 e.2) ⟨none, none, []⟩ =
      .ok (⟨some reg, some p.content,
        putTail (stagedInOrder hash p.work) (stagedInOrder hash p.index) p⟩ : SectionsRead D) := by
    have hmem {o : Object D} (h : o ∈ sectionObjects hash registry p) := hobjects o h
    refine (foldlM_cons_ok (readSection_registry (hmem (by simp [sectionObjects])) hreg)).trans ?_
    refine (foldlM_cons_ok (readSection_content (hmem (by simp [sectionObjects])))).trans ?_
    refine (foldlM_cons_ok (readSection_staged (hmem (by simp [sectionObjects, stagedTree])) (.inl rfl)
      (stagedMapSectionBytes_of hwork))).trans ?_
    iterate 4
      refine (foldlM_cons_ok (readSection_blob (hmem (by simp [sectionObjects])) (by decide)
        (by decide))).trans ?_
    refine (foldlM_cons_ok (readSection_staged (hmem (by simp [sectionObjects, stagedTree])) (.inr rfl)
      (stagedMapSectionBytes_of hindex))).trans ?_
    iterate 3
      refine (foldlM_cons_ok (readSection_blob (hmem (by simp [sectionObjects])) (by decide)
        (by decide))).trans ?_
    simp only [nil_append, append_assoc, putTail]
    rfl
  have htail := reads_importTail hs (sized_stagedInOrder hash hs.work)
    (sized_stagedInOrder hash hs.index) (ofStagedLists_stagedInOrder p.work)
    (ofStagedLists_stagedInOrder p.index) reg p.content []
  rw [append_nil] at htail
  rw [readSections, show validateStateSectionEntries (rootEntries hash registry p) = .ok () from rfl,
    ok_bind, hfold, ok_bind]
  dsimp only
  rw [htail]
  rfl

end Load

namespace Loom

def noFaults : D → Option LoomError := fun _ => none

variable [ToString D]

/-- **Loading a stored state restores it**, with an exact index of the names. -/
theorem loadState_saved {M : Loom hash} {p : Persisted D} (hs : p.Sized) {registry : Bytes}
    (henc : p.registry.encode = .ok registry) (h : Saved M.heap.store registry p) :
    ∃ reg, exec (loadState noFaults (hash (.object (rootTree hash registry p)))) M =
        (.ok (), M.restore { p with registry := reg }) ∧
      reg.byId = p.registry.byId ∧ reg.Exact := by
  obtain ⟨reg, hread, hid, hexact⟩ := readSections_of (M.readObject noFaults) hs henc
    h.sections h.work h.index
  refine ⟨reg, ?_, hid, hexact⟩
  have hroot : M.readObject noFaults (hash (.object (rootTree hash registry p))) =
      .ok (rootTree hash registry p) := h.root
  rw [loadState, exec_get_bind, hroot, exec_lift_bind]
  dsimp only [rootTree]
  rw [exec_loadStateSections, hread]

/-- Loading a stored state lazily reads its registry and keeps its sections. -/
theorem loadStateLazy_saved {M : Loom hash} {p : Persisted D} (hs : p.Sized) {registry : Bytes}
    (henc : p.registry.encode = .ok registry) (h : Saved M.heap.store registry p) :
    ∃ reg, exec (loadStateLazy noFaults (hash (.object (rootTree hash registry p)))) M =
        (.ok (), { M with
          registry := reg
          lazyStateSections := some (rootEntries hash registry p) }) ∧
      reg.byId = p.registry.byId ∧ reg.Exact := by
  obtain ⟨b, reg, hb, hdec, hid, hexact⟩ := Registry.decode_encode_registry hs.registry
  cases henc.symm.trans hb
  refine ⟨reg, ?_, hid, hexact⟩
  have hroot : M.readObject noFaults (hash (.object (rootTree hash registry p))) =
      .ok (rootTree hash registry p) := h.root
  have hfirst : M.readObject noFaults (hash (.object (.blob (putRegistry registry)))) =
      .ok (.blob (putRegistry registry)) := h.sections _ (by simp [sectionObjects])
  have hreg := parseRegistrySection_putRegistry (hs.registryBytes registry henc) hdec
  rw [loadStateLazy, exec_get_bind, hroot, exec_lift_bind]
  refine (exec_bind_of_ok (a := ()) rfl _).trans ?_
  change exec (liftM (M.readObject noFaults (hash (.object (.blob (putRegistry registry))))) >>= _) M =
    _
  rw [hfirst, exec_lift_bind]
  dsimp only
  rw [hreg]
  rfl

end Loom

end UldrenLoom.Vcs
