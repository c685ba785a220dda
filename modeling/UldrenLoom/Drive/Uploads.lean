import UldrenLoom.Drive.Shares

/-!
# Uploads

A file is uploaded in three calls: one opens a session, some add chunks, and one commits it as a new
version. A session replaces a file or makes a new one, under a file id that the caller chooses.

* **`versions_kept`**: the calls of principals who may not write a file keep its versions if all of them
  spare it, and only if all that succeed do.
-/

namespace UldrenLoom.Drive

open Acl ByteString Fallible Vcs Machine
open Substrate (validateText)

/-! ## The calls -/

def enforceExpectedRoot (env : Env) (snapshot : DriveProfileSnapshot) (expected : Digest) :
    Result Unit :=
  refuse (env.profileRoot snapshot ≠ expected)
    ⟨.conflict, "drive profile root does not match expected_root"⟩

def folderMissing : LoomError := .notFound "drive folder not found"

structure HostedDriveCreateUpload where
  workspaceId : Text
  uploadId : Text
  parentFolderId : Text
  name : Text
  fileId : Text
  expectedRoot : Digest
  createdAtMs : UInt64
  replaceFile : Bool

def HostedDriveCreateUpload.session (request : HostedDriveCreateUpload)
    (targetKind : DriveUploadTargetKind) (actor : PrincipalId) : DriveUploadSession :=
  ⟨request.workspaceId, request.uploadId, targetKind, request.parentFolderId, request.name,
    request.fileId, request.expectedRoot, actor, request.createdAtMs, []⟩

/-- Whether the upload replaces a file, and that the caller may do so. -/
def uploadTargetKind (env : Env) (ctx : Context) (D : State) (snapshot : DriveProfileSnapshot)
    (request : HostedDriveCreateUpload) : Result DriveUploadTargetKind :=
  if request.replaceFile then do
    authorizeDriveTarget env ctx D request.workspaceId "file" request.fileId .write
    refuse ((snapshot.versions.latest request.fileId).isNone)
      (.notFound "drive replacement file not found")
    return .replaceFile
  else do
    authorizeDriveTarget env ctx D request.workspaceId "folder" request.parentFolderId .write
    refuse (request.parentFolderId ∉ snapshot.folders.folders.map (·.folderId)) folderMissing
    return .newFile

def createUpload (env : Env) (ctx : Context) (request : HostedDriveCreateUpload) (D : State) :
    Result State := do
  let snapshot ← loadSnapshotOrEmpty D request.workspaceId
  enforceExpectedRoot env snapshot request.expectedRoot
  let targetKind ← uploadTargetKind env ctx D snapshot request
  (request.session targetKind ctx.principal).validate
  saveUploadSession D (request.session targetKind ctx.principal)

def DriveUploadSession.writeTarget (session : DriveUploadSession) : String × Text :=
  match session.targetKind with
  | .newFile => ("folder", session.parentFolderId)
  | .replaceFile => ("file", session.fileId)

def authorizeUpload (env : Env) (ctx : Context) (D : State) (workspaceId : Text)
    (session : DriveUploadSession) : Result Unit :=
  authorizeDriveTarget env ctx D workspaceId session.writeTarget.1 session.writeTarget.2 .write

def DriveUploadSession.appendChunk (session : DriveUploadSession) (digest : Digest) (size : UInt64) :
    DriveUploadSession :=
  { session with chunks := session.chunks ++ [⟨session.chunks.length, digest, size⟩] }

/-- The caller may do something with a content, by the hex digits of its digest. -/
def authorizeCas (env : Env) (ctx : Context) (D : State) (digest : Digest) (right : AclRight) :
    Result Unit :=
  authorizeResource env ctx D .cas
    (.value .path (strBytes (String.ofList (Hex.encode digest.bytes)))) right

def casPut (env : Env) (ctx : Context) (D : State) (bytes : Bytes) : Result Digest := do
  authorizeCas env ctx D (env.contentAddress bytes) .write
  ctx.stored bytes
  return env.contentAddress bytes

def casGet (env : Env) (ctx : Context) (D : State) (digest : Digest) : Result (Option Bytes) := do
  authorizeCas env ctx D digest .read
  ctx.held digest

def uploadChunk (env : Env) (ctx : Context) (workspaceId uploadId : Text) (bytes : Bytes)
    (D : State) : Result State := do
  let session ← loadUploadSession D workspaceId uploadId
  authorizeUpload env ctx D workspaceId session
  let digest ← casPut env ctx D bytes
  refuse (bytes.length = 0 ∨ chunkMaxSize.toNat < bytes.length)
    (.invalid "drive upload chunk size is out of range")
  (session.appendChunk digest (.ofNat bytes.length)).validate
  saveUploadSession D (session.appendChunk digest (.ofNat bytes.length))

def DriveChunkRef.new (digest : Digest) (size : UInt64) : Result DriveChunkRef := do
  refuse (size = 0 ∨ chunkMaxSize < size) (.invalid "drive chunk size is out of range")
  return ⟨digest, size⟩

def DriveChunkManifest.validate (manifest : DriveChunkManifest) : Result Unit := do
  refuse (manifest.totalSize ≤ chunkMinSize)
    (.invalid "drive chunk manifest is only for chunked content")
  refuse manifest.chunks.isEmpty (.invalid "drive chunk manifest must not be empty")
  let total ← manifest.chunks.zipIdx.foldlM (fun total (chunk, idx) => do
    refuse (idx + 1 < manifest.chunks.length ∧ chunk.size < chunkMinSize)
      (.invalid "drive non-final chunk is too small")
    refuse (2 ^ 64 ≤ total + chunk.size.toNat) (.invalid "drive chunk manifest size overflow")
    return total + chunk.size.toNat) 0
  refuse (total ≠ manifest.totalSize.toNat) (.invalid "drive chunk manifest total size mismatch")

/-- The bytes of a chunk, from the content store. -/
def chunkBytes (env : Env) (ctx : Context) (D : State) (chunk : DriveUploadChunk) : Result Bytes := do
  match ← casGet env ctx D chunk.digest with
  | none => .error (.notFound "drive upload chunk not found")
  | some bytes =>
    refuse (chunk.size.toNat ≠ bytes.length) ⟨.integrityFailure, "drive content size mismatch"⟩
    return bytes

def dehydratedFileMarkerMagic : Bytes := strBytes "LOOM-DRIVE-DEHYDRATED\x00"

/-- Store what was uploaded: as one content if it is small, and as a list of chunks if it is not. -/
def uploadContentRef (env : Env) (ctx : Context) (D : State) (session : DriveUploadSession) :
    Result DriveContentRef := do
  refuse (session.chunks.isEmpty) (.invalid "drive upload has no chunks")
  let total := (session.chunks.map (·.size.toNat)).sum
  refuse (2 ^ 64 ≤ total) (.invalid "drive upload size overflow")
  let bytes := (← session.chunks.mapM (chunkBytes env ctx D)).flatten
  refuse (dehydratedFileMarkerMagic <+: bytes)
    (.invalid "drive dehydrated marker bytes must not be uploaded as file content")
  if total ≤ chunkMinSize.toNat then
    return .blob (← casPut env ctx D bytes) (.ofNat total)
  else
    let manifest : DriveChunkManifest := ⟨env.hash bytes, .ofNat total,
      ← session.chunks.mapM fun chunk => DriveChunkRef.new chunk.digest chunk.size⟩
    manifest.validate
    return .manifest (← casPut env ctx D (← env.encodeManifest manifest)) (env.hash bytes) (.ofNat total)

def ensureFolderMut (folderId : Text) (f : DriveFolderChildren → Result
    (List DriveFolderEntry)) : List DriveFolderChildren → Result (List DriveFolderChildren) :=
  editFirst (·.folderId = folderId) folderMissing fun folder => do
    return [{ folder with entries := ← f folder }]

def pushEntry (env : Env) (folderId name nodeId : Text) (kind : DriveNodeKind) :
    List DriveFolderChildren → Result (List DriveFolderChildren) :=
  ensureFolderMut folderId fun folder => do
    return folder.entries ++ [← DriveFolderEntry.new env name nodeId kind]

/-- The folders with the entry of a new file, and the conflicts if the name is taken. -/
def placeUpload (env : Env) (ctx : Context) (D : State) (workspaceId uploadId : Text)
    (session : DriveUploadSession) (snapshot : DriveProfileSnapshot) :
    Result (DriveFolderIndex × Option DriveConflictIndex) :=
  match session.targetKind with
  | .replaceFile => .ok (snapshot.folders, none)
  | .newFile =>
    match snapshot.folders.folders.find? (·.folderId = session.parentFolderId) with
    | none => .error folderMissing
    | some parent => do
      let foldKey ← driveFoldKey env session.name
      match parent.entries.find? (·.foldKey = foldKey) with
      | none =>
        let folders ← pushEntry env session.parentFolderId session.name session.fileId .file
          snapshot.folders.folders
        return (← DriveFolderIndex.new env snapshot.workspaceId folders, none)
      | some existing =>
        let conflictName ← env.conflictCopyName session.name ctx.nowMs
        let folders ← pushEntry env session.parentFolderId conflictName session.fileId .file
          snapshot.folders.folders
        let conflicts ← (← loadConflicts D workspaceId).append ⟨str uploadId ++ ":conflict",
          session.parentFolderId, existing.nodeId, session.fileId, conflictName,
          session.expectedRoot, .open⟩
        return (← DriveFolderIndex.new env snapshot.workspaceId folders, some conflicts)

def commitUpload (env : Env) (ctx : Context) (workspaceId uploadId : Text) (D : State) :
    Result State := do
  let session ← loadUploadSession D workspaceId uploadId
  authorizeUpload env ctx D workspaceId session
  let snapshot ← loadSnapshotOrEmpty D workspaceId
  refuse (env.profileRoot snapshot ≠ session.expectedRoot ∧ session.targetKind ≠ .newFile)
    ⟨.conflict, "drive replacement upload base is stale"⟩
  let content ← uploadContentRef env ctx D session
  let version : DriveFileVersion := ⟨session.fileId,
    (snapshot.versions.latest session.fileId).elim 1 (·.version + 1),
    ("upload:" ++ str uploadId : String), session.authorPrincipal, ctx.nowMs, content⟩
  version.validate
  let versions ← DriveFileVersionIndex.new snapshot.workspaceId
    (snapshot.versions.versions ++ [version])
  let placed ← placeUpload env ctx D workspaceId uploadId session snapshot
  let next : DriveProfileSnapshot := ⟨snapshot.workspaceId, placed.1, versions⟩
  let own ← profileWrites next
  let key ← driveUploadSessionKey workspaceId uploadId
  let conflictKey ← driveConflictIndexKey workspaceId
  commitWrites ctx D next (own ++ (key, none) ::
    (placed.2.map fun conflicts => (conflictKey, some (.conflicts conflicts))).toList)

inductive UploadCall where
  | create (request : HostedDriveCreateUpload)
  | chunk (workspaceId uploadId : Text) (bytes : Bytes)
  | commit (workspaceId uploadId : Text)

def UploadCall.apply (env : Env) (ctx : Context) : UploadCall → State → Result State
  | .create request, D => createUpload env ctx request D
  | .chunk workspaceId uploadId bytes, D => uploadChunk env ctx workspaceId uploadId bytes D
  | .commit workspaceId uploadId, D => commitUpload env ctx workspaceId uploadId D

def uploadStep (env : Env) (call : Context × UploadCall) (D : State) : Result Unit × State :=
  settle D (call.2.apply env call.1 D)

/-! ## What the calls write -/

theorem get_write_of_ne {D : State} {writes : List (Text × Option Record)} {key : Text}
    (h : ∀ w ∈ writes, w.1 ≠ key) : (D.write writes).controls.get key = D.controls.get key := by
  induction writes generalizing D with
  | nil => rfl
  | cons w writes ih =>
    obtain ⟨hw, h⟩ := List.forall_mem_cons.mp h
    exact (ih h).trans ((State.get_put D w key).trans (if_neg hw))

theorem get_write_head {D : State} {writes : List (Text × Option Record)} {key : Text}
    {record : Option Record} (h : ∀ w ∈ writes, w.1 ≠ key) :
    (D.write ((key, record) :: writes)).controls.get key = record :=
  (get_write_of_ne (D := D.put (key, record)) h).trans ((State.get_put ..).trans (if_pos rfl))

@[simp] theorem acl_write (D : State) (writes : List (Text × Option Record)) :
    (D.write writes).acl = D.acl := by
  induction writes generalizing D with
  | nil => rfl
  | cons w writes ih => exact ih (D.put w)

section Written

variable {env : Env} {ctx : Context} {D D' : State} {w u : Text}

theorem uploadSessionKey_eq_ok {key : Text} (h : driveUploadSessionKey w u = .ok key) :
    key = uploadKey w u := by
  obtain ⟨⟨⟩, _, h⟩ := of_bind h
  obtain ⟨⟨⟩, _, h⟩ := of_bind h
  exact (Except.ok.inj h).symm

theorem saveUploadSession_eq_ok {session : DriveUploadSession}
    (h : saveUploadSession D session = .ok D') :
    D' = D.write [(uploadKey session.workspaceId session.uploadId, some (.upload session))] := by
  obtain ⟨key, hkey, h⟩ := of_bind h
  obtain rfl := uploadSessionKey_eq_ok hkey
  exact (Except.ok.inj h).symm

theorem loadUploadSession_eq_ok {session : DriveUploadSession}
    (h : loadUploadSession D w u = .ok session) :
    D.controls.get (uploadKey w u) = some (.upload session) := by
  obtain ⟨key, hkey, h⟩ := of_bind h
  obtain rfl := uploadSessionKey_eq_ok hkey
  rcases load_eq_ok h with ⟨_, h⟩ | ⟨record, hget, hread⟩
  · cases h
  · cases record <;> simp_all

theorem createUpload_eq_ok {request : HostedDriveCreateUpload}
    (h : createUpload env ctx request D = .ok D') : ∃ session,
      D' = D.write [(uploadKey session.workspaceId session.uploadId, some (.upload session))] ∧
        session.workspaceId = request.workspaceId ∧ session.uploadId = request.uploadId := by
  obtain ⟨snapshot, _, h⟩ := of_bind h
  obtain ⟨⟨⟩, _, h⟩ := of_bind h
  obtain ⟨kind, _, h⟩ := of_bind h
  obtain ⟨⟨⟩, _, h⟩ := of_bind h
  exact ⟨request.session kind ctx.principal, saveUploadSession_eq_ok h, rfl, rfl⟩

theorem uploadChunk_eq_ok {bytes : Bytes} (hD : D.Filed)
    (h : uploadChunk env ctx w u bytes D = .ok D') : ∃ old session,
      D.controls.get (uploadKey w u) = some (.upload old) ∧
        D' = D.write [(uploadKey w u, some (.upload session))] ∧
        uploadKey w u = uploadKey session.workspaceId session.uploadId := by
  obtain ⟨session, hload, h⟩ := of_bind h
  obtain ⟨⟨⟩, _, h⟩ := of_bind h
  obtain ⟨digest, _, h⟩ := of_bind h
  obtain ⟨⟨⟩, _, h⟩ := of_bind h
  obtain ⟨⟨⟩, _, h⟩ := of_bind h
  have hget := loadUploadSession_eq_ok hload
  have hkey : uploadKey w u = uploadKey session.workspaceId session.uploadId := hD _ _ hget
  have hD' := saveUploadSession_eq_ok h
  exact ⟨session, session.appendChunk digest (.ofNat bytes.length), hget,
    hD'.trans (by rw [hkey]; rfl), hkey⟩

/-- **A commit has read a session and a snapshot, and writes a snapshot with one more version.** -/
theorem commitUpload_eq_ok (h : commitUpload env ctx w u D = .ok D') :
    ∃ session snapshot version versions placed, loadUploadSession D w u = .ok session ∧
      authorizeUpload env ctx D w session = .ok () ∧ loadSnapshotOrEmpty D w = .ok snapshot ∧
      version.fileId = session.fileId ∧ versions.versions = snapshot.versions.versions ++ [version] ∧
      placeUpload env ctx D w u session snapshot = .ok placed ∧
      D' = D.write ((controlKey snapshot.workspaceId "snapshot",
          some (.snapshot ⟨snapshot.workspaceId, placed.1, versions⟩)) ::
        (controlKey snapshot.workspaceId "operations", some .operations) :: (uploadKey w u, none) ::
          (placed.2.map fun index => (controlKey w "conflicts", some (.conflicts index))).toList) := by
  obtain ⟨session, hsession, h⟩ := of_bind h
  obtain ⟨⟨⟩, hauth, h⟩ := of_bind h
  obtain ⟨snapshot, hsnap, h⟩ := of_bind h
  obtain ⟨⟨⟩, _, h⟩ := of_bind h
  obtain ⟨content, _, h⟩ := of_bind h
  obtain ⟨⟨⟩, _, h⟩ := of_bind h
  obtain ⟨versions, hversions, h⟩ := of_bind h
  obtain ⟨placed, hplaced, h⟩ := of_bind h
  obtain ⟨own, hown, h⟩ := of_bind h
  obtain ⟨key, hkey, h⟩ := of_bind h
  obtain ⟨conflictKey, hconflictKey, h⟩ := of_bind h
  obtain ⟨⟨⟩, _, h⟩ := of_bind h
  obtain ⟨⟨⟩, _, h⟩ := of_bind h
  have hD' := Except.ok.inj h
  obtain ⟨profile, hprofile, hown⟩ := of_bind hown
  obtain ⟨log, hlog, hown⟩ := of_bind hown
  obtain ⟨⟨⟩, _, hversions⟩ := of_bind hversions
  obtain ⟨⟨⟩, _, hversions⟩ := of_bind hversions
  cases hversions
  cases hown
  obtain rfl := checkedKey_eq_ok hprofile
  obtain rfl := checkedKey_eq_ok hlog
  obtain rfl := checkedKey_eq_ok hconflictKey
  obtain rfl := uploadSessionKey_eq_ok hkey
  exact ⟨session, snapshot, _, _, placed, hsession, hauth, hsnap, rfl, rfl, hplaced, hD'.symm⟩

end Written

/-! ## The versions of a file -/

section Versions

variable (home : WorkspaceId) (w f : Text)

/-- The recorded versions of a file of a Drive. -/
def versionsOf (D : State) : Result (List DriveFileVersion) := do
  return (← loadSnapshotOrEmpty D w).versions.versions.filter (·.fileId = f)

/-- A call does not store a session under the key of the snapshot. Of the Drive's sessions for the file,
it commits only replacements, and those in the name of the Drive's own workspace. -/
def Spares (D : State) : Context × UploadCall → Prop
  | (_, .create request) =>
    uploadKey request.workspaceId request.uploadId ≠ controlKey w "snapshot"
  | (_, .chunk ..) => True
  | (ctx, .commit w' u) => w' = w → ∀ session, loadUploadSession D w u = .ok session →
    session.fileId = f → session.targetKind = .replaceFile ∧ ctx.workspace = home

variable {home w f} {D D' : State} {vs : List DriveFileVersion}

/-- A file with versions is in a stored snapshot. -/
theorem versionsOf_eq_ok (hne : vs ≠ []) (h : versionsOf w f D = .ok vs) :
    (∃ key, driveProfileKey w = .ok key) ∧ ∃ snapshot,
      D.controls.get (controlKey w "snapshot") = some (.snapshot snapshot) ∧
        snapshot.versions.versions.filter (·.fileId = f) = vs := by
  obtain ⟨snapshot, hload, h⟩ := of_bind h
  obtain ⟨key, hkey, _⟩ := of_bind hload
  refine ⟨⟨key, hkey⟩, ?_⟩
  have hvs := Except.ok.inj h
  rcases loadSnapshotFrom_eq_ok hload with ⟨_, habsent⟩ | hget
  · cases habsent
    exact absurd hvs.symm hne
  · exact ⟨snapshot, hget, hvs⟩

theorem versionsOf_of_get {record : Record} (hw : ∃ key, driveProfileKey w = .ok key)
    (h : D.controls.get (controlKey w "snapshot") = some record) :
    versionsOf w f D = .ok vs ↔ ∃ snapshot, record = .snapshot snapshot ∧
      snapshot.versions.versions.filter (·.fileId = f) = vs := by
  obtain ⟨key, hkey⟩ := hw
  obtain rfl := checkedKey_eq_ok hkey
  unfold versionsOf loadSnapshotOrEmpty loadSnapshotFrom State.load
  simp only [hkey, ok_bind, h]
  cases record with
  | snapshot s =>
    refine ⟨fun h => ⟨s, rfl, Except.ok.inj h⟩, ?_⟩
    rintro ⟨_, hs, rfl⟩
    cases hs
    rfl
  | _ => exact ⟨(nomatch ·), fun ⟨_, hs, _⟩ => by cases hs⟩

theorem versionsOf_of_same (hw : ∃ key, driveProfileKey w = .ok key)
    (h : D'.controls.get (controlKey w "snapshot") = D.controls.get (controlKey w "snapshot")) :
    versionsOf w f D' = versionsOf w f D := by
  unfold versionsOf loadSnapshotOrEmpty loadSnapshotFrom State.load
  obtain ⟨key, hkey⟩ := hw
  obtain rfl := checkedKey_eq_ok hkey
  simp only [hkey, ok_bind, h]

/-- **A call that succeeds keeps the versions of a file its caller may not write exactly if it spares
them.** -/
theorem apply_versions {env : Env} {ctx : Context} {call : UploadCall} (hD : D.Filed) (hne : vs ≠ [])
    (hvs : versionsOf w f D = .ok vs)
    (hp : authorizeDriveTarget env { ctx with workspace := home } D w "file" f .write ≠ .ok ())
    (h : call.apply env ctx D = .ok D') :
    D'.Filed ∧ D'.acl = D.acl ∧ (versionsOf w f D' = .ok vs ↔ Spares home w f D (ctx, call)) := by
  obtain ⟨hw, snapshot, hget, hfilter⟩ := versionsOf_eq_ok hne hvs
  cases call with
  | create request =>
    obtain ⟨session, rfl, hws, hid⟩ := createUpload_eq_ok h
    rw [hws, hid]
    refine ⟨hD.write (by simp [Record.Filed, hws, hid]), acl_write .., ?_⟩
    by_cases hkey : uploadKey request.workspaceId request.uploadId = controlKey w "snapshot"
    · refine iff_of_false ?_ fun hs => hs hkey
      have hput := State.get_put D (uploadKey request.workspaceId request.uploadId,
        some (.upload session)) (controlKey w "snapshot")
      rw [if_pos hkey] at hput
      rintro h
      obtain ⟨_, hs, _⟩ := (versionsOf_of_get hw hput).mp h
      cases hs
    · refine iff_of_true ?_ hkey
      rw [versionsOf_of_same hw (get_write_of_ne (by simpa using hkey)), hvs]
  | chunk w' u bytes =>
    obtain ⟨old, session, hold, rfl, hkey⟩ := uploadChunk_eq_ok hD h
    refine ⟨hD.write (by simp [Record.Filed, hkey]), acl_write .., iff_of_true ?_ trivial⟩
    have hne' : uploadKey w' u ≠ controlKey w "snapshot" := fun he => by
      rw [he, hget] at hold
      cases hold
    rw [versionsOf_of_same hw (get_write_of_ne (by simpa using hne')), hvs]
  | commit w' u =>
    obtain ⟨session, snapshot', version, versions, placed, hsession, hauth, hsnap, hfile, hversions,
      _, rfl⟩ := commitUpload_eq_ok h
    obtain rfl := snapshot_workspaceId hD hsnap
    have hupload : uploadKey snapshot'.workspaceId u ≠ controlKey w "snapshot" := fun he => by
      have := loadUploadSession_eq_ok hsession
      rw [he, hget] at this
      cases this
    have hlog : ∀ v, controlKey v "operations" ≠ controlKey w "snapshot" :=
      fun v => controlKey_ne v w (by decide)
    have hconflicts : ∀ v, controlKey v "conflicts" ≠ controlKey w "snapshot" :=
      fun v => controlKey_ne v w (by decide)
    refine ⟨hD.write (by cases placed.2 <;> simp [Record.Filed]), acl_write .., ?_⟩
    by_cases hw' : snapshot'.workspaceId = w
    · subst hw'
      obtain rfl : snapshot = snapshot' := by
        rcases loadSnapshotFrom_eq_ok hsnap with ⟨hnone, _⟩ | hsome
        · rw [hget] at hnone
          cases hnone
        · rw [hget] at hsome
          cases hsome
          rfl
      rw [versionsOf_of_get hw (get_write_head (by
        cases placed.2 <;> simp [hlog, hupload, hconflicts]))]
      have hnext : (versions.versions.filter (·.fileId = f) = vs) ↔ session.fileId ≠ f := by
        rw [hversions, List.filter_append, hfilter, List.append_right_eq_self]
        simp [List.filter_cons, hfile]
      constructor
      · rintro ⟨_, hs, hfilter'⟩ _ session' hsession' hf
        cases hs
        rw [hsession] at hsession'
        cases hsession'
        exact absurd hf (hnext.mp hfilter')
      · intro hs
        refine ⟨_, rfl, hnext.mpr fun hf => hp ?_⟩
        -- a replacement of the file was authorized in the Drive's workspace, where the caller is refused
        obtain ⟨hkind, hhome⟩ := hs rfl session hsession hf
        rw [← hhome, ← hf]
        simpa only [authorizeUpload, DriveUploadSession.writeTarget, hkind] using hauth
    · refine iff_of_true ?_ fun he => absurd he hw'
      have hprofile : controlKey snapshot'.workspaceId "snapshot" ≠ controlKey w "snapshot" :=
        fun he => hw' (controlKey_injective "snapshot" he)
      rw [versionsOf_of_same hw (get_write_of_ne ?_), hvs]
      cases placed.2 <;> simp [hprofile, hlog, hupload, hconflicts]

/-- **The calls keep the versions at every step exactly if every step that succeeds spares them.** -/
theorem along_versions_iff (env : Env) (hD : D.Filed) (hne : vs ≠ []) (hvs : versionsOf w f D = .ok vs)
    (calls : List (Context × UploadCall)) (hp : ∀ call ∈ calls,
      authorizeDriveTarget env { call.1 with workspace := home } D w "file" f .write ≠ .ok ()) :
    Along (uploadStep env) (fun D call => versionsOf w f (uploadStep env call D).2 = .ok vs) calls D ↔
      Along (uploadStep env) (fun D call => (uploadStep env call D).1 = .ok () →
        Spares home w f D call) calls D := by
  induction calls generalizing D with
  | nil => exact Iff.rfl
  | cons first calls ih =>
    obtain ⟨hfirst, hcalls⟩ := List.forall_mem_cons.mp hp
    have hstep : (uploadStep env first D).2.Filed ∧ (uploadStep env first D).2.acl = D.acl ∧
        (versionsOf w f (uploadStep env first D).2 = .ok vs ↔
          ((uploadStep env first D).1 = .ok () → Spares home w f D first)) := by
      unfold uploadStep
      cases h : first.2.apply env first.1 D with
      | ok D' =>
        obtain ⟨hfiled, hacl, hiff⟩ := apply_versions hD hne hvs hfirst h
        exact ⟨hfiled, hacl, hiff.trans ⟨fun hs _ => hs, fun hs => hs rfl⟩⟩
      | error e => exact ⟨hD, rfl, iff_of_true hvs nofun⟩
    obtain ⟨hfiled, hacl, hiff⟩ := hstep
    have hnext : ∀ call ∈ calls, authorizeDriveTarget env { call.1 with workspace := home }
        (uploadStep env first D).2 w "file" f .write ≠ .ok () := by
      unfold authorizeDriveTarget authorizeDriveScope authorizeResource
      rw [hacl]
      exact hcalls
    constructor
    · exact fun ⟨hkept, hrest⟩ => ⟨hiff.mp hkept, (ih hfiled hkept hnext).mp hrest⟩
    · rintro ⟨hspares, hrest⟩
      have hkept := hiff.mpr hspares
      exact ⟨hkept, (ih hfiled hkept hnext).mpr hrest⟩

end Versions

/-- **The calls of principals who may not write a file of a Drive in its workspace** keep the versions
of the file at every step if every call spares them, and only if every call that succeeds does. -/
theorem versions_kept (env : Env) (home : WorkspaceId) (w f : Text) (D : State) (hD : D.Filed)
    (vs : List DriveFileVersion) (hne : vs ≠ []) (hvs : versionsOf w f D = .ok vs)
    (calls : List (Context × UploadCall)) (hp : ∀ call ∈ calls,
      authorizeDriveTarget env { call.1 with workspace := home } D w "file" f .write ≠ .ok ()) :
    (Along (uploadStep env) (Spares home w f) calls D →
      Along (uploadStep env) (fun D call => versionsOf w f (uploadStep env call D).2 = .ok vs) calls D) ∧
    (Along (uploadStep env) (fun D call => versionsOf w f (uploadStep env call D).2 = .ok vs) calls D →
      Along (uploadStep env) (fun D call => (uploadStep env call D).1 = .ok () →
        Spares home w f D call) calls D) := by
  have hiff := along_versions_iff env hD hne hvs calls hp
  refine ⟨fun h => hiff.mpr (h.imp ?_), hiff.mp⟩
  exact fun _ _ hs _ => hs

namespace Sample

def document : DriveFileVersion := ⟨"f", 1, "op", owner, 0, .blob zero 1⟩

/-- A file `f` in a folder `docs`, and a member who may write the folder `root` and use the content
store. -/
def drive : State :=
  ⟨.ofList [(controlKey "w" "snapshot", .snapshot ⟨"w", ⟨"w", [⟨"root", [⟨"docs", "docs", "docs",
      .folder⟩]⟩, ⟨"docs", [⟨"a", "a", "f", .file⟩]⟩]⟩, ⟨"w", [document]⟩⟩)],
    ⟨[⟨.principal member, none, some .files, none,
      [.startsWith .collection (strBytes "w/folder/root")], .ofList [.write], .allow, none⟩,
      ⟨.principal member, none, some .cas, none, [.all], .ofList [.read, .write], .allow, none⟩]⟩, none⟩

/-- The member uploads a new file to `root`, under a file id. -/
def upload (fileId : Text) : List (Context × UploadCall) :=
  [(asking member, .create ⟨"w", "u", "root", "x", fileId, zero, 0, false⟩),
    (asking member, .chunk "w" "u" [1]), (asking member, .commit "w" "u")]

/-- A new file under the id `f` becomes the next version of the file `f`. -/
theorem new_file_adds_version : versionsOf "w" "f" drive = .ok [document] ∧
      authorizeDriveTarget env (asking member) drive "w" "file" "f" .write ≠ .ok () ∧
      versionsOf "w" "f" (run (uploadStep env) (upload "f") drive) =
        .ok [document, ⟨"f", 2, "upload:u", member, 0, .blob zero 1⟩] := by
  decide +kernel

theorem filed_drive : drive.Filed := by
  intro key record hget
  obtain ⟨rfl, rfl⟩ := Prod.mk.inj (List.mem_singleton.mp (SortedMap.get_eq_some.mp hget))
  rfl

/-- A new file under another id leaves the versions of `f` alone. -/
theorem versions_kept_upload_g : Along (uploadStep env) (fun D call => versionsOf "w" "f"
    (uploadStep env call D).2 = .ok [document]) (upload "g") drive := by
  have hkey : uploadKey "w" "u" ≠ controlKey "w" "snapshot" := by decide +kernel
  refine (versions_kept env owner "w" "f" drive filed_drive [document] (by decide) (by decide +kernel)
    (upload "g") (by decide +kernel)).1 ⟨hkey, trivial, fun _ session hload hf => ?_, trivial⟩
  have hsession : loadUploadSession (run (uploadStep env) ((upload "g").take 2) drive) "w" "u" =
      .ok ⟨"w", "u", .newFile, "root", "x", "g", zero, member, 0, [⟨0, zero, 1⟩]⟩ := by decide +kernel
  obtain rfl := Except.ok.inj (hsession.symm.trans hload)
  exact absurd (show ("g" : String) = "f" from hf) (by decide)

end Sample

end UldrenLoom.Drive
