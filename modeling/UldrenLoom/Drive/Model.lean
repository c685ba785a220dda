import UldrenLoom.Acl.Policy
import UldrenLoom.Substrate.Sequencer

/-!
# The Drive service

A Drive keeps its folders, file versions, uploads, conflicts and shares in control records of the
store, each under a key made from the workspace id of the Drive.
-/

namespace UldrenLoom.Drive

open Acl ByteString Fallible Vcs
open Substrate (validateText)

/-! ## Loops and checks -/

section Loops

variable {α : Type}

def refuse (p : Prop) [Decidable p] (e : LoomError) : Result Unit :=
  if p then .error e else .ok ()

/-- Check every element against those before it. -/
def scan (check : List α → α → Result Unit) : List α → List α → Result Unit
  | _, [] => .ok ()
  | prior, x :: xs => do
    check prior x
    scan check (x :: prior) xs

def editFirst (p : α → Bool) (missing : LoomError) (f : α → Result (List α)) :
    List α → Result (List α)
  | [] => .error missing
  | x :: xs =>
    if p x then do return (← f x) ++ xs
    else do return x :: (← editFirst p missing f xs)

end Loops

/-! ## Records -/

inductive DriveNodeKind where
  | file
  | folder
  | shortcut
deriving Repr, DecidableEq

structure DriveFolderEntry where
  name : Text
  foldKey : Text
  nodeId : Text
  kind : DriveNodeKind
deriving DecidableEq

structure DriveFolderChildren where
  folderId : Text
  entries : List DriveFolderEntry
deriving DecidableEq

structure DriveFolderIndex where
  workspaceId : Text
  folders : List DriveFolderChildren
deriving DecidableEq

inductive DriveContentRef where
  | blob (digest : Digest) (size : UInt64)
  | manifest (manifestDigest contentDigest : Digest) (size : UInt64)
deriving DecidableEq

structure DriveFileVersion where
  fileId : Text
  version : UInt64
  operationId : Text
  authorPrincipal : WorkspaceId
  timestampMs : UInt64
  content : DriveContentRef
deriving DecidableEq

structure DriveFileVersionIndex where
  workspaceId : Text
  versions : List DriveFileVersion
deriving DecidableEq

structure DriveProfileSnapshot where
  workspaceId : Text
  folders : DriveFolderIndex
  versions : DriveFileVersionIndex
deriving DecidableEq

inductive DriveUploadTargetKind where
  | newFile
  | replaceFile
deriving Repr, DecidableEq

structure DriveUploadChunk where
  sequence : ℕ
  digest : Digest
  size : UInt64
deriving DecidableEq

structure DriveUploadSession where
  workspaceId : Text
  uploadId : Text
  targetKind : DriveUploadTargetKind
  parentFolderId : Text
  name : Text
  fileId : Text
  expectedRoot : Digest
  authorPrincipal : WorkspaceId
  createdAtMs : UInt64
  chunks : List DriveUploadChunk
deriving DecidableEq

inductive DriveConflictResolution where
  | «open»
  | keepCurrent
  | keepConflict
  | keepBoth
deriving Repr, DecidableEq

structure DriveConflictRecord where
  conflictId : Text
  folderId : Text
  visibleNodeId : Text
  conflictNodeId : Text
  conflictName : Text
  baseRoot : Digest
  resolution : DriveConflictResolution
deriving DecidableEq

structure DriveConflictIndex where
  workspaceId : Text
  conflicts : List DriveConflictRecord
deriving DecidableEq

inductive DriveShareTargetKind where
  | file
  | folder
  | comment
  | link
  | artifact
deriving Repr, DecidableEq

inductive DriveShareRole where
  | viewer
  | commenter
  | editor
  | owner
  | agentReader
  | agentEditor
deriving Repr, DecidableEq

structure DriveShareGrant where
  grantId : Text
  targetKind : DriveShareTargetKind
  targetId : Text
  principal : PrincipalId
  role : DriveShareRole
  grantedBy : PrincipalId
  grantedAtMs : UInt64
  expiresAtMs : Option UInt64
deriving DecidableEq

structure DriveShareIndex where
  workspaceId : Text
  grants : List DriveShareGrant
deriving DecidableEq

/-- A control record, decoded. Of an operation log only that it is one. -/
inductive Record where
  | snapshot (snapshot : DriveProfileSnapshot)
  | upload (session : DriveUploadSession)
  | conflicts (index : DriveConflictIndex)
  | shares (index : DriveShareIndex)
  | operations
deriving DecidableEq

/-- The control records, the policy in memory and the one that is stored. -/
structure State where
  controls : SortedMap Text Record
  acl : AclStore
  persistedAcl : Option AclStore
deriving DecidableEq

/-- A chunk of a file that is kept in chunks. -/
structure DriveChunkRef where
  digest : Digest
  size : UInt64

/-- How a file that is kept in chunks is put together. -/
structure DriveChunkManifest where
  contentDigest : Digest
  totalSize : UInt64
  chunks : List DriveChunkRef

/-- What the service is run with. -/
structure Env where
  hash : Bytes → Digest
  contentAddress : Bytes → Digest
  encodeManifest : DriveChunkManifest → Result Bytes
  profileRoot : DriveProfileSnapshot → Digest
  foldName : Text → Text
  conflictCopyName : Text → UInt64 → Result Text
  evaluator : Option AclPredicateEvaluator

/-- Who calls and when, whether the content store takes a content, what it holds under a digest, and
whether the logs and the transaction go through. -/
structure Context where
  workspace : WorkspaceId
  authenticated : Bool
  principal : PrincipalId
  roles : List RoleId
  nowMs : UInt64
  stored : Bytes → Result Unit
  held : Digest → Result (Option Bytes)
  recorded : Result Unit

/-! ## Checks of records -/

def validateDriveName (name : Text) : Result Unit := do
  validateText "drive name" name
  refuse ('/' ∈ String.toList name ∨ '\x00' ∈ String.toList name)
    (.invalid "drive name contains a forbidden character")

variable (env : Env)

def driveFoldKey (name : Text) : Result Text := do
  validateDriveName name
  return env.foldName name

def DriveFolderEntry.new (name nodeId : Text) (kind : DriveNodeKind) : Result DriveFolderEntry := do
  validateDriveName name
  validateText "drive node_id" nodeId
  return ⟨name, ← driveFoldKey env name, nodeId, kind⟩

def DriveFolderChildren.validate (folder : DriveFolderChildren) : Result Unit := do
  validateText "drive folder_id" folder.folderId
  scan (fun prior entry => do
    validateDriveName entry.name
    validateText "drive node_id" entry.nodeId
    refuse (entry.foldKey ≠ (← driveFoldKey env entry.name))
      (.invalid "drive folder entry fold key mismatch")
    refuse (entry.foldKey ∈ prior.map (·.foldKey))
      ⟨.alreadyExists, "drive folder entry name collision"⟩
    refuse (entry.nodeId ∈ prior.map (·.nodeId))
      (.invalid "drive folder children node ids must be unique")) [] folder.entries

def DriveFolderIndex.new (workspaceId : Text) (folders : List DriveFolderChildren) :
    Result DriveFolderIndex := do
  validateText "workspace_id" workspaceId
  scan (fun prior folder => do
    folder.validate env
    refuse (folder.folderId ∈ prior.map (·.folderId))
      (.invalid "drive folder ids must be unique")) [] folders
  return ⟨workspaceId, folders⟩

/-- The smallest content that is kept in chunks is larger than this. -/
def chunkMinSize : UInt64 := 512 * 1024

def chunkMaxSize : UInt64 := 4 * 1024 * 1024

def DriveContentRef.validate : DriveContentRef → Result Unit
  | .blob _ size => do
    refuse (chunkMinSize < size) (.invalid "drive blob content exceeds single-blob threshold")
    refuse (size = 0) (.invalid "drive blob size is zero")
  | .manifest _ _ size =>
    refuse (size ≤ chunkMinSize) (.invalid "drive manifest content is below chunk threshold")

def DriveFileVersion.validate (version : DriveFileVersion) : Result Unit := do
  validateText "drive file_id" version.fileId
  validateText "drive operation_id" version.operationId
  refuse (version.version = 0) (.invalid "drive file version must be positive")
  version.content.validate

def DriveFileVersionIndex.new (workspaceId : Text) (versions : List DriveFileVersion) :
    Result DriveFileVersionIndex := do
  validateText "workspace_id" workspaceId
  scan (fun prior version => do
    version.validate
    refuse ((version.fileId, version.version) ∈ prior.map fun v => (v.fileId, v.version))
      (.invalid "drive file versions must be unique per file")) [] versions
  return ⟨workspaceId, versions⟩

def DriveFileVersionIndex.latest (index : DriveFileVersionIndex) (fileId : Text) :
    Option DriveFileVersion :=
  (index.versions.filter (·.fileId = fileId)).foldl
    (fun best version => some (best.elim version fun b =>
      if b.version ≤ version.version then version else b)) none

def DriveUploadSession.validate (session : DriveUploadSession) : Result Unit := do
  validateText "workspace_id" session.workspaceId
  validateText "drive upload_id" session.uploadId
  validateText "drive parent_folder_id" session.parentFolderId
  validateDriveName session.name
  validateText "drive file_id" session.fileId
  refuse (session.chunks.map (·.sequence) ≠ List.range session.chunks.length)
    (.invalid "drive upload chunks must be contiguous")

def DriveConflictRecord.validate (record : DriveConflictRecord) : Result Unit := do
  validateText "drive conflict_id" record.conflictId
  validateText "drive folder_id" record.folderId
  validateText "drive visible_node_id" record.visibleNodeId
  validateText "drive conflict_node_id" record.conflictNodeId
  validateDriveName record.conflictName

def DriveConflictIndex.append (index : DriveConflictIndex) (record : DriveConflictRecord) :
    Result DriveConflictIndex := do
  record.validate
  validateText "workspace_id" index.workspaceId
  scan (fun prior conflict => do
    conflict.validate
    refuse (conflict.conflictId ∈ prior.map (·.conflictId))
      (.invalid "drive conflict ids must be unique")) [] (index.conflicts ++ [record])
  return { index with conflicts := index.conflicts ++ [record] }

def DriveShareGrant.validate (grant : DriveShareGrant) : Result Unit := do
  validateText "drive share grant_id" grant.grantId
  validateText "drive share target_id" grant.targetId
  refuse (grant.expiresAtMs.any (· ≤ grant.grantedAtMs))
    (.invalid "drive share expiration must be after grant time")

def DriveShareIndex.new (workspaceId : Text) (grants : List DriveShareGrant) :
    Result DriveShareIndex := do
  validateText "workspace_id" workspaceId
  scan (fun prior grant => do
    grant.validate
    refuse (grant.grantId ∈ prior.map (·.grantId))
      (.invalid "drive share grant ids must be unique")) [] grants
  return ⟨workspaceId, grants⟩

/-! ## Keys -/

@[reducible] def str (text : Text) : String := text

def controlKey (workspaceId : Text) (tail : String) : Text :=
  ("profile/drive/v1/" ++ str workspaceId ++ "/" ++ tail : String)

def checkedKey (workspaceId : Text) (tail : String) : Result Text := do
  validateText "workspace_id" workspaceId
  return controlKey workspaceId tail

def driveProfileKey (workspaceId : Text) : Result Text := checkedKey workspaceId "snapshot"

def driveOperationLogKey (workspaceId : Text) : Result Text :=
  checkedKey workspaceId "operations"

def driveConflictIndexKey (workspaceId : Text) : Result Text :=
  checkedKey workspaceId "conflicts"

def driveShareIndexKey (workspaceId : Text) : Result Text :=
  checkedKey workspaceId "shares"

def uploadKey (workspaceId uploadId : Text) : Text :=
  controlKey workspaceId ("uploads/" ++ str uploadId)

def driveUploadSessionKey (workspaceId uploadId : Text) : Result Text := do
  validateText "workspace_id" workspaceId
  validateText "drive upload_id" uploadId
  return uploadKey workspaceId uploadId

theorem checkedKey_eq_ok {w key : Text} {tail : String} (h : checkedKey w tail = .ok key) :
    key = controlKey w tail := by
  obtain ⟨⟨⟩, _, h⟩ := of_bind h
  exact (Except.ok.inj h).symm

theorem controlKey_injective (tail : String) : Function.Injective (controlKey · tail) := by
  intro w w' h
  have := congrArg String.toList h
  simp only [controlKey, String.toList_append, List.append_cancel_right_eq,
    List.append_cancel_left_eq] at this
  exact String.toList_injective this

theorem controlKey_ne {tail tail' : String} (w w' : Text)
    (h : 2 ≤ tail.toList.length ∧ 2 ≤ tail'.toList.length ∧
      tail.toList.reverse.take 2 ≠ tail'.toList.reverse.take 2) :
    controlKey w tail ≠ controlKey w' tail' := by
  intro he
  refine h.2.2 ?_
  have := congrArg (fun s => (String.toList s).reverse.take 2) he
  simp only [controlKey, String.toList_append, List.reverse_append] at this
  rwa [List.take_append_of_le_length (by simpa using h.1),
    List.take_append_of_le_length (by simpa using h.2.1)] at this

/-! ## Reading and writing -/

namespace State

def load {α : Type} (D : State) (key : Text) (schema : String) (read : Record → Option α)
    (absent : Result α) : Result α :=
  match D.controls.get key with
  | none => absent
  | some record =>
    (read record).elim (.error (.corrupt ("expected schema loom.studio.drive." ++ schema ++ ".v1"))) .ok

def put (D : State) (w : Text × Option Record) : State :=
  { D with controls := w.2.elim (D.controls.erase w.1) (D.controls.insert w.1) }

def write (D : State) (writes : List (Text × Option Record)) : State := writes.foldl put D

@[simp] theorem get_put (D : State) (w : Text × Option Record) (key : Text) :
    (D.put w).controls.get key = if w.1 = key then w.2 else D.controls.get key := by
  obtain ⟨k, _ | record⟩ := w
  · exact SortedMap.get_erase ..
  · exact SortedMap.get_insert ..

end State

variable (D : State)

/-- The end of a call that writes last; a refused one changes nothing. -/
def settle : Result State → Result Unit × State
  | .ok D' => (.ok (), D')
  | .error e => (.error e, D)

def emptySnapshot (workspaceId : Text) : DriveProfileSnapshot :=
  ⟨workspaceId, ⟨workspaceId, [⟨("root" : String), []⟩]⟩, ⟨workspaceId, []⟩⟩

def loadSnapshotFrom (workspaceId : Text)
    (absent : Result DriveProfileSnapshot) : Result DriveProfileSnapshot := do
  D.load (← driveProfileKey workspaceId) "profile-snapshot"
    (fun | .snapshot snapshot => some snapshot | _ => none) absent

def loadSnapshotOrEmpty (workspaceId : Text) : Result DriveProfileSnapshot :=
  loadSnapshotFrom D workspaceId (.ok (emptySnapshot workspaceId))

def loadUploadSession (workspaceId uploadId : Text) : Result DriveUploadSession := do
  D.load (← driveUploadSessionKey workspaceId uploadId) "upload-session"
    (fun | .upload session => some session | _ => none)
    (.error (.notFound "drive upload session not found"))

def saveUploadSession (session : DriveUploadSession) : Result State := do
  return D.write [(← driveUploadSessionKey session.workspaceId session.uploadId,
    some (.upload session))]

def loadConflicts (workspaceId : Text) : Result DriveConflictIndex := do
  D.load (← driveConflictIndexKey workspaceId) "conflict-index"
    (fun | .conflicts index => some index | _ => none) (.ok ⟨workspaceId, []⟩)

def loadShares (workspaceId : Text) : Result DriveShareIndex := do
  D.load (← driveShareIndexKey workspaceId) "share-index"
    (fun | .shares index => some index | _ => none) (.ok ⟨workspaceId, []⟩)

def loadOperationLog (workspaceId : Text) : Result Unit := do
  D.load (← driveOperationLogKey workspaceId) "operation-log"
    (fun | .operations => some () | _ => none) (.ok ())

/-- The two records every recorded operation writes. -/
def profileWrites (snapshot : DriveProfileSnapshot) : Result (List (Text × Option Record)) := do
  return [(← driveProfileKey snapshot.workspaceId, some (.snapshot snapshot)),
    (← driveOperationLogKey snapshot.workspaceId, some .operations)]

/-- Record an operation and write records with it, in one transaction. -/
def commitWrites (ctx : Context) (D : State) (snapshot : DriveProfileSnapshot)
    (writes : List (Text × Option Record)) : Result State := do
  loadOperationLog D snapshot.workspaceId
  ctx.recorded
  return D.write writes

def recordOperation (ctx : Context) (D : State) (snapshot : DriveProfileSnapshot)
    (writes : List (Text × Option Record)) : Result State := do
  commitWrites ctx D snapshot (writes ++ (← profileWrites snapshot))

/-! ## Authorization -/

/-- The caller may do something in a part of a domain of the workspace. -/
def authorizeResource (env : Env) (ctx : Context) (D : State) (domain : AclDomain)
    (scope : AclResourceScope) (right : AclRight) : Result Unit :=
  D.acl.authorizeResourceWithRolesAndEvaluator ctx.authenticated ctx.principal ctx.roles
    ⟨ctx.workspace, domain, none, scope⟩ right env.evaluator

def authorizeDriveScope (env : Env) (ctx : Context) (D : State) (value : Bytes) (right : AclRight) :
    Result Unit :=
  authorizeResource env ctx D .files (.value .collection value) right

def authorizeDriveCollection (env : Env) (ctx : Context) (D : State) (workspaceId : Text)
    (right : AclRight) : Result Unit :=
  authorizeDriveScope env ctx D (strBytes (str workspaceId)) right

def driveAclScopeValue (workspaceId : Text) (targetKind : String) (targetId : Text) : String :=
  str workspaceId ++ "/" ++ targetKind ++ "/" ++ str targetId

/-- A target is a text that grants match by how it starts. -/
def authorizeDriveTarget (env : Env) (ctx : Context) (D : State) (workspaceId : Text)
    (targetKind : String) (targetId : Text) (right : AclRight) : Result Unit :=
  authorizeDriveScope env ctx D (strBytes (driveAclScopeValue workspaceId targetKind targetId)) right

/-! ## Where records lie -/

/-- A record lies under the key that is made from it. -/
def Record.Filed (key : Text) : Record → Prop
  | .snapshot s => key = controlKey s.workspaceId "snapshot"
  | .upload s => key = uploadKey s.workspaceId s.uploadId
  | .shares s => key = controlKey s.workspaceId "shares"
  | _ => True

def State.Filed : Prop :=
  ∀ key record, D.controls.get key = some record → record.Filed key

variable {D : State} {writes : List (Text × Option Record)}

/-- What holds of all records and of those that are written holds of all records afterwards. -/
theorem forall_get_write {P : Text → Record → Prop}
    (hD : ∀ key record, D.controls.get key = some record → P key record)
    (h : ∀ w ∈ writes, ∀ record, w.2 = some record → P w.1 record) :
    ∀ key record, (D.write writes).controls.get key = some record → P key record := by
  induction writes generalizing D with
  | nil => exact hD
  | cons w writes ih =>
    obtain ⟨hw, hrest⟩ := List.forall_mem_cons.mp h
    refine ih (D := D.put w) (fun key record hget => ?_) hrest
    rw [State.get_put] at hget
    split_ifs at hget with hk
    · exact hk ▸ hw record hget
    · exact hD key record hget

theorem State.Filed.write {D : State} (hD : D.Filed) {writes : List (Text × Option Record)}
    (h : ∀ w ∈ writes, ∀ record, w.2 = some record → record.Filed w.1) : (D.write writes).Filed :=
  forall_get_write hD h

theorem recordOperation_eq_ok {ctx : Context} {D' : State} {snapshot : DriveProfileSnapshot}
    (h : recordOperation ctx D snapshot writes = .ok D') :
    loadOperationLog D snapshot.workspaceId = .ok () ∧
      D' = D.write (writes ++ [(controlKey snapshot.workspaceId "snapshot", some (.snapshot snapshot)),
        (controlKey snapshot.workspaceId "operations", some .operations)]) := by
  obtain ⟨own, hown, h⟩ := of_bind h
  obtain ⟨profile, hprofile, hown⟩ := of_bind hown
  obtain ⟨log, hlog, hown⟩ := of_bind hown
  obtain ⟨⟨⟩, hload, h⟩ := of_bind h
  obtain ⟨⟨⟩, _, h⟩ := of_bind h
  have hD' := Except.ok.inj h
  cases hown
  obtain rfl := checkedKey_eq_ok hprofile
  obtain rfl := checkedKey_eq_ok hlog
  exact ⟨hload, hD'.symm⟩

end UldrenLoom.Drive
