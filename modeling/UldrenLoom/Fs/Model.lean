import UldrenLoom.Lib.Subtree
import UldrenLoom.Vcs.Content

/-!
# The file system of a workspace

The public file operations on the working tree of a workspace, and file handles on it. The state of
the engine is loaded. A sum that does not fit its type is an error, where the source panics.
-/

namespace UldrenLoom.Fs

open ByteString Fallible Effect Subtree Vcs

variable {D : Type} [LinearOrder D] [ToString D] {hash : Stored D → D}

/-- What the engine is run with. -/
structure Env (hash : Stored D → D) extends Vcs.Env hash where
  /-- Access to a path of the files of a workspace. -/
  authorizePath : WorkspaceId → Path → AclRight → Result Unit
  /-- Access to all files of a workspace. -/
  authorizeFiles : WorkspaceId → AclRight → Result Unit
  /-- Whether the store takes a file that is written at a path. -/
  stores : WorkspaceId → Path → Result Unit

def defaultFileMode : UInt32 := 0o100644

def symlinkMode : UInt32 := 0o120000

/-! ## Paths -/

def loomReservedDir : Path := ".loom".toList

def isReservedPath (path : Path) : Bool := AtOrUnder '/' loomReservedDir path

def guardReservedWrite (path : Path) : Result Unit :=
  if isReservedPath path then
    .error ⟨.permissionDenied, path.quote ++ " is under the reserved " ++ loomReservedDir.quote ++
      " subtree and is not user-writable"⟩
  else .ok ()

section Look

variable (L : Loom hash) (ns : WorkspaceId)

def slot (path : Path) : Option (StagedEntry D) := (L.workOf ns).get path

def dirExists (dir : Path) : Bool := dir = [] ∨ dir ∈ L.dirsOf ns

def isFile (path : Path) : Bool :=
  match slot L ns path with
  | some (.file _) => true
  | _ => false

def fileMode (path : Path) : Option UInt32 :=
  match slot L ns path with
  | some (.file f) => some f.mode
  | _ => none

def stagedPaths : List Path := (L.workOf ns).keys

def describe : StagedEntry D → String
  | .file _ => "a file"
  | .table _ => "a table"
  | .stream _ => "a stream"
  | .timeSeries _ => "a time-series collection"
  | .graph _ => "a graph collection"
  | .ledger _ => "a ledger collection"
  | .columnar _ => "a columnar dataset"
  | .document _ => "a document collection"

def fileSlot (path : Path) : Result (Option (StagedFile D)) :=
  match slot L ns path with
  | none => .ok none
  | some (.file f) => .ok (some f)
  | some e => .error (.invalid (path.quote ++ " is " ++ describe e ++ ", not a file"))

def notStaged (path : Path) : LoomError := .notFound (path.quote ++ " not staged")

def isDirectory (path : Path) : LoomError := ⟨.alreadyExists, path.quote ++ " is a directory"⟩

def noParent (path : Path) : LoomError :=
  .notFound ("parent directory of " ++ path.quote ++ " does not exist")

def parentExists (path : Path) : Bool :=
  match rsplitOnce path with
  | some (parent, _) => dirExists L ns parent
  | none => true

/-- A file can be put at a path that is no directory and whose directory exists. -/
def checkFileTarget (path : Path) : Result Unit :=
  if dirExists L ns path then .error (isDirectory path)
  else if parentExists L ns path then .ok ()
  else .error (noParent path)

end Look

/-! ## Slots and inodes -/

section Slots

variable (L : Loom hash) (ns : WorkspaceId)

def updateInode (id : UInt64) (f : Inode D → Inode D) : Loom hash :=
  { L with inodes := L.inodes.update id f }

def updateOpen (path : Path) (f : Inode D → Inode D) : Loom hash :=
  { L with inodes :=
      match L.pathToInode.get (toLex (ns, path)) with
      | some id => L.inodes.update id f
      | none => L.inodes }

def setSlot (path : Path) (e : StagedEntry D) : Loom hash :=
  { L with work := L.work.insert ns ((L.workOf ns).insert path e) }

def eraseSlot (path : Path) : Loom hash :=
  { L with work := L.work.update ns fun w => w.erase path }

/-- Put a file at a path, and into its inode if it is open. -/
def putFileSlot (path : Path) (addr : D) (size : ℕ) (mode : UInt32) : Loom hash :=
  setSlot (updateOpen L ns path fun ino =>
    { ino with contentAddr := addr, size := UInt64.ofNat size, mode := mode }) ns path
    (.file ⟨addr, mode⟩)

def unlink (path : Path) : Loom hash :=
  { L with pathToInode := L.pathToInode.erase (toLex (ns, path)) }

/-- Remove a path; its inode, if it is open, loses the path. -/
def removeFileNorm (path : Path) : Loom hash :=
  eraseSlot (unlink (updateOpen L ns path fun ino => { ino with path := none }) ns path) ns path

def recordFrom : (n : ℕ) → Path → DirSet → DirSet
  | 0, _, dirs => dirs
  | n + 1, cur, dirs =>
    if cur = [] then dirs
    else match rsplitOnce cur with
      | some (parent, _) => recordFrom n parent (dirs.insert cur)
      | none => dirs.insert cur

def recordDir (dir : Path) : Loom hash :=
  { L with dirs := L.dirs.insert ns (recordFrom (dir.length + 1) dir (L.dirsOf ns)) }

/-- Keep the directories that are not at or below a path. -/
def dropDirs (path : Path) : Loom hash :=
  { L with dirs := L.dirs.update ns fun dirs =>
      SortedSet.ofList (dirs.elems.filter fun k => k ≠ path ∧ ¬ Under '/' path k) }

end Slots

/-! ## Files -/

section Files

variable (env : Env hash) (ns : WorkspaceId)

def readFileNorm (L : Loom hash) (path : Path) : Result Bytes := do
  match ← fileSlot L ns path with
  | some f => loadContent L.heap f.contentAddr
  | none => .error (notStaged path)

def readFile (L : Loom hash) (path : Path) : Result Bytes := do
  let path ← normalizePath path
  env.authorizePath ns path .read
  readFileNorm ns L path

def storeAt (path : Path) (bytes : Bytes) (mode : UInt32) : Update (Loom hash) Unit := do
  let addr ← Loom.onHeap (storeContent env.toEnv bytes)
  modify fun L => putFileSlot L ns path addr bytes.length mode

def writeFileNorm (path : Path) (bytes : Bytes) (mode : UInt32) : Update (Loom hash) Unit := do
  checkFileTarget (← get) ns path
  env.stores ns path
  storeAt env ns path bytes mode

/-- A write to a path must be granted, and the path must not be the engine's own. -/
def writeGranted (path : Path) : Result Unit := do
  env.authorizePath ns path .write
  guardReservedWrite path

def writeFile (path : Path) (bytes : Bytes) (mode : UInt32) : Update (Loom hash) Unit := do
  let path ← normalizePath path
  writeGranted env ns path
  writeFileNorm env ns path bytes mode

/-- The bytes and the mode of the file at a path; a new file is empty. -/
def currentContent (L : Loom hash) (path : Path) : Result (Bytes × UInt32) := do
  match ← fileSlot L ns path with
  | some f => do
    let content ← loadContent L.heap f.contentAddr
    .ok (content, f.mode)
  | none => .ok ([], defaultFileMode)

/-- Add bytes to a vector, whose length must fit 63 bits; the source panics. -/
def extend (content bytes : Bytes) : Result Bytes :=
  if (content ++ bytes).length < 2 ^ 63 then .ok (content ++ bytes)
  else .error (.corrupt "capacity overflow")

def appendFile (path : Path) (bytes : Bytes) : Update (Loom hash) Unit := do
  let path ← normalizePath path
  writeGranted env ns path
  checkFileTarget (← get) ns path
  let (content, mode) ← currentContent ns (← get) path
  let content ← extend content bytes
  storeAt env ns path content mode

/-- The content, the size and the mode of the file at a path; a new file has no content. -/
def currentSource (L : Loom hash) (path : Path) : Result (Option D × ℕ × UInt32) := do
  match ← fileSlot L ns path with
  | some f => do
    let size ← contentSize L.heap f.contentAddr
    .ok (some f.contentAddr, size, f.mode)
  | none => .ok (none, 0, defaultFileMode)

def planWrite (src : Option D) (oldSize offset : ℕ) (data : Bytes) : Result (EditPlan D) :=
  if offset + data.length < 2 ^ 64 then .ok (.write src oldSize offset data) else .error overflow

def editFile (path : Path) (plan : Option D → ℕ → Result (EditPlan D)) :
    Update (Loom hash) Unit := do
  let path ← normalizePath path
  writeGranted env ns path
  checkFileTarget (← get) ns path
  let (src, oldSize, mode) ← currentSource ns (← get) path
  let plan ← plan src oldSize
  let (addr, size) ← Loom.onHeap (buildEditedContent env.toEnv plan)
  modify fun L => putFileSlot L ns path addr size mode

def writeAt (path : Path) (offset : UInt64) (data : Bytes) : Update (Loom hash) Unit :=
  editFile env ns path fun src oldSize => planWrite src oldSize offset.toNat data

def truncateFile (path : Path) (size : UInt64) : Update (Loom hash) Unit :=
  editFile env ns path fun src oldSize => .ok (.truncate src oldSize size.toNat)

/-- A link can be made at a new path whose directory exists, to something. -/
def checkLinkTarget (L : Loom hash) (path : Path) (target : Bytes) : Result Unit :=
  if dirExists L ns path then .error (isDirectory path)
  else if (slot L ns path).isSome then .error ⟨.alreadyExists, path.quote ++ " already exists"⟩
  else if target = [] then .error (.invalid "symlink target must not be empty")
  else if parentExists L ns path then .ok ()
  else .error (noParent path)

def symlink (target : Bytes) (linkPath : Path) : Update (Loom hash) Unit := do
  let path ← normalizePath linkPath
  guardReservedWrite path
  checkLinkTarget ns (← get) path target
  storeAt env ns path target symlinkMode

def removeFile (path : Path) : Update (Loom hash) Unit := do
  let path ← normalizePath path
  writeGranted env ns path
  modify fun L => removeFileNorm L ns path

end Files

/-! ## Directories -/

section Directories

variable (env : Env hash) (ns : WorkspaceId)

/-- Make a directory; with `recursive` also its parents. -/
def createDirectory (path : Path) (recursive : Bool) : Update (Loom hash) Unit := do
  let norm ← normalizePath path
  guardReservedWrite norm
  let L ← get
  if isFile L ns norm then throw ⟨.alreadyExists, path.quote ++ " is a file"⟩
  else if dirExists L ns norm then pure ()
  else if ¬ recursive ∧ ¬ parentExists L ns norm then throw (noParent path)
  else modify fun L => recordDir L ns norm

def childFiles (L : Loom hash) (dir : Path) : List Path :=
  (stagedPaths L ns).filter fun k => Under '/' dir k

def removeFiles (paths : List Path) : Update (Loom hash) Unit :=
  paths.forM fun key => removeFile env ns key

/-- Remove a directory; with `recursive` also what is below it. -/
def removeDirectory (path : Path) (recursive : Bool) : Update (Loom hash) Unit := do
  let norm ← normalizePath path
  guardReservedWrite norm
  let L ← get
  if ¬ dirExists L ns norm then throw (.notFound path.quote)
  else if ¬ recursive ∧
      (childFiles ns L norm ≠ [] ∨ (L.dirsOf ns).elems.any fun k => Under '/' norm k) then
    throw (.invalid ("directory " ++ path.quote ++ " is not empty"))
  else do
    removeFiles env ns (childFiles ns L norm)
    modify fun L => dropDirs L ns norm

/-- A file below a directory that is copied: its path from there, its mode and its bytes. -/
abbrev CopiedFile := Path × UInt32 × Bytes

def snapshotFiles (L : Loom hash) (s : Path) : Result (List CopiedFile) :=
  (childFiles ns L s).mapM fun key => do
    let bytes ← readFile env ns L key
    .ok (key.drop (s ++ ['/']).length, (fileMode L ns key).getD defaultFileMode, bytes)

def subDirs (L : Loom hash) (s : Path) : List Path :=
  (L.dirsOf ns).elems.filter fun k => k = s ∨ Under '/' s k

def targetDir (s d sd : Path) : Path :=
  let rel := if sd = s then [] else sd.drop (s ++ ['/']).length
  if rel = [] then d else d ++ '/' :: rel

def recordDirs (L : Loom hash) (s d : Path) (dirs : List Path) : Loom hash :=
  dirs.foldl (fun L sd => recordDir L ns (targetDir s d sd)) (recordDir L ns d)

def writeFiles (d : Path) (files : List CopiedFile) : Update (Loom hash) Unit :=
  files.forM fun f => writeFile env ns (d ++ '/' :: f.1) f.2.2 f.2.1

def copyPath (src dst : Path) (recursive : Bool) : Update (Loom hash) Unit := do
  let s ← normalizePath src
  let d ← normalizePath dst
  let L ← get
  if isFile L ns s then do
    let bytes ← readFile env ns L s
    writeFile env ns d bytes ((fileMode L ns s).getD defaultFileMode)
  else if ¬ dirExists L ns s then throw (.notFound src.quote)
  else if ¬ recursive then
    throw (.invalid (src.quote ++ " is a directory; pass recursive"))
  else do
    let files ← snapshotFiles env ns L s
    modify fun L => recordDirs ns L s d (subDirs ns L s)
    writeFiles env ns d files

def removeSource (s : Path) : Update (Loom hash) Unit := do
  let L ← get
  if isFile L ns s then removeFile env ns s
  else do
    removeFiles env ns (childFiles ns L s)
    modify fun L => dropDirs L ns s

def movePath (src dst : Path) : Update (Loom hash) Unit := do
  let s ← normalizePath src
  guardReservedWrite s
  let d ← normalizePath dst
  guardReservedWrite d
  copyPath env ns src dst true
  removeSource env ns s

end Directories

/-! ## Handles -/

section Handles

def canRead (mode : OpenMode) : Bool := mode ≠ .write

def canWrite (mode : OpenMode) : Bool := mode ≠ .read

variable (env : Env hash) (ns : WorkspaceId)

/-- Give new content to an inode, and to the path it is linked to. -/
def applyInodeContent (id : UInt64) (addr : D) (size : ℕ) : Update (Loom hash) Unit := do
  let L ← get
  match L.inodes.get id with
  | none => throw (.notFound "inode")
  | some ino =>
    modify fun L => updateInode L id fun ino =>
      { ino with contentAddr := addr, size := UInt64.ofNat size }
    match ino.path with
    | some p => modify fun L => setSlot L ino.ns p (.file ⟨addr, ino.mode⟩)
    | none => pure ()

def allocInode (ino : Inode D) : Update (Loom hash) UInt64 := do
  let id := (← get).nextInode
  if id.toNat + 1 < 2 ^ 64 then do
    modify fun L => { L with nextInode := id + 1, inodes := L.inodes.insert id ino }
    return id
  else throw overflow

def allocHandle (h : OpenHandle) : Update (Loom hash) UInt64 := do
  let id := (← get).nextHandle
  if id.toNat + 1 < 2 ^ 64 then do
    modify fun L => { L with nextHandle := id + 1, handles := L.handles.insert id h }
    return id
  else throw overflow

def linkInode (path : Path) (addr : D) (size : ℕ) (mode : UInt32) : Update (Loom hash) UInt64 := do
  let id ← allocInode ⟨ns, some path, addr, UInt64.ofNat size, mode, 1⟩
  modify fun L => { L with pathToInode := L.pathToInode.insert (toLex (ns, path)) id }
  return id

def shareInode (id : UInt64) : Update (Loom hash) UInt64 := do
  match (← get).inodes.get id with
  | some ino =>
    if ino.openCount.toNat + 1 < 2 ^ 32 then do
      modify fun L => updateInode L id fun ino => { ino with openCount := ino.openCount + 1 }
      return id
    else throw overflow
  | none => return id

/-- The inode of a path that is opened: shared, linked to the file that is there, or that of a new
file. `created` is the outcome of the put of an empty content. -/
def openInode (created : Result Unit) (path : Path) (mode : OpenMode) : Update (Loom hash) UInt64 := do
  let L ← get
  match L.pathToInode.get (toLex (ns, path)) with
  | some id => shareInode id
  | none =>
    match ← fileSlot L ns path with
    | some f => do
      let size ← contentSize L.heap f.contentAddr
      linkInode ns path f.contentAddr size f.mode
    | none =>
      if mode = .read then throw (notStaged path)
      else if ¬ parentExists L ns path then throw (noParent path)
      else do
        liftM created
        let empty ← Loom.onHeap (storeContent env.toEnv [])
        let id ← linkInode ns path empty 0 defaultFileMode
        modify fun L => setSlot L ns path (.file ⟨empty, defaultFileMode⟩)
        return id

variable (L : Loom hash)

/-- The checks of an opening, before it changes anything. -/
def openChecks (path : Path) (mode : OpenMode) : Result Unit := do
  if canRead mode then env.authorizePath ns path .read else .ok ()
  if canWrite mode then env.authorizePath ns path .write else .ok ()
  if mode ≠ .read then guardReservedWrite path else .ok ()
  if dirExists L ns path then .error (isDirectory path) else .ok ()

/-- A handle on an inode; opening only for writing empties the file. `emptied` is the outcome of the
put of the empty content, which comes after the inode has counted the handle. -/
def openHandle (emptied : Result Unit) (id : UInt64) (mode : OpenMode) : Update (Loom hash) UInt64 :=
  if mode = .write then do
    liftM emptied
    let empty ← Loom.onHeap (storeContent env.toEnv [])
    applyInodeContent id empty 0
    allocHandle ⟨id, 0, mode⟩
  else allocHandle ⟨id, 0, mode⟩

/-- Open a file, with the outcomes of its two puts. -/
def fileOpenWith (created emptied : Result Unit) (path : Path) (mode : OpenMode) :
    Update (Loom hash) UInt64 := do
  let path ← normalizePath path
  openChecks env ns (← get) path mode
  let id ← openInode env ns created path mode
  openHandle env emptied id mode

/-- Open a file, in a store that takes every object. -/
def fileOpen (path : Path) (mode : OpenMode) : Update (Loom hash) UInt64 :=
  fileOpenWith env ns (.ok ()) (.ok ()) path mode

def handle (h : UInt64) : Result OpenHandle :=
  match L.handles.get h with
  | some oh => .ok oh
  | none => .error (.notFound "handle")

def handleInode (id : UInt64) : Result (Inode D) :=
  match L.inodes.get id with
  | some ino => .ok ino
  | none => .error (.notFound "inode")

/-- Access through a handle: to its path, or to all files once it has none. -/
def authorizeHandle (oh : OpenHandle) (right : AclRight) : Result Unit := do
  let ino ← handleInode L oh.inode
  match ino.path with
  | some path => env.authorizePath ino.ns path right
  | none => env.authorizeFiles ino.ns right

def readingHandle (h : UInt64) : Result (OpenHandle × Inode D) := do
  let oh ← handle L h
  if ¬ canRead oh.mode then .error (.invalid "handle opened write-only")
  else do
    authorizeHandle env L oh .read
    let ino ← handleInode L oh.inode
    .ok (oh, ino)

def writingHandle (h : UInt64) : Result (OpenHandle × Inode D) := do
  let oh ← handle L h
  if ¬ canWrite oh.mode then .error (.invalid "handle opened read-only")
  else do
    authorizeHandle env L oh .write
    let ino ← handleInode L oh.inode
    .ok (oh, ino)

def setOffset (h : UInt64) (f : UInt64 → UInt64) : Loom hash :=
  { L with handles := L.handles.update h fun oh => { oh with offset := f oh.offset } }

def fileRead (h : UInt64) (len : UInt64) : Update (Loom hash) Bytes := do
  let L ← get
  let (oh, ino) ← readingHandle env L h
  let data ← contentReadRange L.heap ino.contentAddr oh.offset.toNat len.toNat
  modify fun L => setOffset L h (· + UInt64.ofNat data.length)
  return data

def editInode (id : UInt64) (plan : Result (EditPlan D)) : Update (Loom hash) Unit := do
  let plan ← plan
  let (addr, size) ← Loom.onHeap (buildEditedContent env.toEnv plan)
  applyInodeContent id addr size

/-- Write at the offset of a handle; or at the end. -/
def fileWrite (h : UInt64) (data : Bytes) : Update (Loom hash) ℕ := do
  let L ← get
  let (oh, ino) ← writingHandle env L h
  let pos := if oh.mode = .append then ino.size else oh.offset
  editInode env oh.inode (planWrite (some ino.contentAddr) ino.size.toNat pos.toNat data)
  modify fun L => setOffset L h fun _ => pos + UInt64.ofNat data.length
  return data.length

def fileWriteAt (h : UInt64) (offset : UInt64) (data : Bytes) : Update (Loom hash) ℕ := do
  let L ← get
  let (oh, ino) ← writingHandle env L h
  editInode env oh.inode (planWrite (some ino.contentAddr) ino.size.toNat offset.toNat data)
  return data.length

def fileTruncate (h : UInt64) (size : UInt64) : Update (Loom hash) Unit := do
  let L ← get
  let (oh, ino) ← writingHandle env L h
  editInode env oh.inode (.ok (.truncate (some ino.contentAddr) ino.size.toNat size.toNat))

def dropInode (id : UInt64) (ino : Inode D) : Loom hash :=
  { L with
    inodes := L.inodes.erase id
    pathToInode :=
      match ino.path with
      | some p => L.pathToInode.erase (toLex (ino.ns, p))
      | none => L.pathToInode }

def saturatingPred (n : UInt32) : UInt32 := if n = 0 then 0 else n - 1

def releaseInode (id : UInt64) : Loom hash :=
  match L.inodes.get id with
  | some ino =>
    let ino := { ino with openCount := saturatingPred ino.openCount }
    if ino.openCount = 0 then dropInode L id ino
    else { L with inodes := L.inodes.insert id ino }
  | none => L

def fileClose (h : UInt64) : Update (Loom hash) Unit := do
  let L ← get
  let oh ← handle L h
  modify fun L => releaseInode { L with handles := L.handles.erase h } oh.inode

end Handles

/-! ## Slots of a commit -/

section Restore

def setHead (reg : Registry D) (id : WorkspaceId) (branch : Path) : Result (Registry D) := do
  Registry.validateRefName "branch" branch
  match h : reg.byId.get id with
  | none => .error (.notFound ("workspace " ++ toString id))
  | some r =>
    if branch ≠ Registry.defaultBranch ∧ r.branches.get branch = none then
      .error (.notFound ("branch " ++ branch.quote))
    else .ok (reg.setRecord id { r with head := branch } ⟨r, h, rfl⟩)

variable (env : Env hash) (ns : WorkspaceId)

def checkoutBranch (branch : Path) : Update (Loom hash) Unit := do
  env.authorizeRef ns (Loom.branchRef branch) .read
  env.authorizeRef ns (Loom.branchRef branch) .write
  let registry ← setHead (← get).registry ns branch
  modify fun L => { L with registry := registry }
  match ← (← get).registry.branchTip ns branch with
  | some tip => Loom.checkoutCommit env.toEnv ns tip
  | none => modify fun L => { L with
      work := L.work.insert ns SortedMap.empty
      index := L.index.insert ns SortedMap.empty
      dirs := L.dirs.insert ns SortedSet.empty }

def ancestorDirs (path : Path) (dirs : DirSet) : DirSet :=
  ((path.splitOn '/').dropLast.foldl (fun r seg =>
    let acc := (if r.1 = [] then r.1 else r.1 ++ ['/']) ++ seg
    (acc, r.2.insert acc)) (([] : Path), dirs)).2

/-- Add the parents of a path to the directories of a workspace. -/
def ensureAncestorDirs (L : Loom hash) (path : Path) : Loom hash :=
  { L with dirs := L.dirs.insert ns (ancestorDirs path (L.dirsOf ns)) }

def revisionTree (L : Loom hash) (rev : Path) : Result (WorkTree D × DirSet) := do
  let commit ← Loom.resolveRev env.toEnv L ns rev
  flattenCommit L.heap.store commit

def restoreFile (rev path : Path) : Update (Loom hash) Unit := do
  env.authorize ns .write
  let path ← normalizePath path
  let (files, _) ← revisionTree env ns (← get) rev
  match files.get path with
  | some e => modify fun L => setSlot (ensureAncestorDirs ns L path) ns path e
  | none => modify fun L => eraseSlot L ns path

def trimSlashes (path : Path) : Path := (path.dropWhile (· = '/')).rdropWhile (· = '/')

def selected (pre key : Path) : Bool := pre = [] ∨ AtOrUnder '/' pre key

/-- The slots of one tree, and of another where they are selected. -/
def restoredFiles (pre : Path) (work files : WorkTree D) : WorkTree D :=
  SortedMap.ofList (work.entries.filter (fun e => ¬ selected pre e.1) ++
    files.entries.filter fun e => selected pre e.1)

/-- The directories of one set, and of another where they are selected. -/
def restoredDirs (pre : Path) (dirs snapDirs : DirSet) : DirSet :=
  SortedSet.ofList (dirs.elems.filter (fun k => ¬ selected pre k) ++
    snapDirs.elems.filter fun k => selected pre k)

/-- Put the paths under a prefix back to what they were at a revision. -/
def restorePath (rev pre : Path) : Update (Loom hash) Unit := do
  env.authorize ns .write
  let (files, snapDirs) ← revisionTree env ns (← get) rev
  let pre := trimSlashes pre
  modify fun L => { L with
    work := L.work.insert ns (restoredFiles pre (L.workOf ns) files)
    dirs := L.dirs.insert ns (restoredDirs pre (L.dirsOf ns) snapDirs) }
  if pre = [] then pure () else modify fun L => ensureAncestorDirs ns L pre

end Restore

/-! ## Operations -/

/-- An operation on the files of a workspace. -/
inductive Op (D : Type) where
  | writeFile (path : Path) (bytes : Bytes) (mode : UInt32)
  | appendFile (path : Path) (bytes : Bytes)
  | writeAt (path : Path) (offset : UInt64) (data : Bytes)
  | truncateFile (path : Path) (size : UInt64)
  | symlink (target : Bytes) (linkPath : Path)
  | removeFile (path : Path)
  | createDirectory (path : Path) (recursive : Bool)
  | removeDirectory (path : Path) (recursive : Bool)
  | copyPath (src dst : Path) (recursive : Bool)
  | movePath (src dst : Path)
  | fileOpen (path : Path) (mode : OpenMode)
  | fileRead (h len : UInt64)
  | fileWrite (h : UInt64) (data : Bytes)
  | fileWriteAt (h offset : UInt64) (data : Bytes)
  | fileTruncate (h size : UInt64)
  | fileClose (h : UInt64)
  | checkoutCommit (commit : D)
  | checkoutBranch (branch : Path)
  | restoreFile (rev path : Path)
  | restorePath (rev pre : Path)

def Op.run (env : Env hash) (ns : WorkspaceId) : Op D → Update (Loom hash) Unit
  | .writeFile path bytes mode => Fs.writeFile env ns path bytes mode
  | .appendFile path bytes => Fs.appendFile env ns path bytes
  | .writeAt path offset data => Fs.writeAt env ns path offset data
  | .truncateFile path size => Fs.truncateFile env ns path size
  | .symlink target linkPath => Fs.symlink env ns target linkPath
  | .removeFile path => Fs.removeFile env ns path
  | .createDirectory path recursive => Fs.createDirectory ns path recursive
  | .removeDirectory path recursive => Fs.removeDirectory env ns path recursive
  | .copyPath src dst recursive => Fs.copyPath env ns src dst recursive
  | .movePath src dst => Fs.movePath env ns src dst
  | .fileOpen path mode => do let _ ← Fs.fileOpen env ns path mode
  | .fileRead h len => do let _ ← Fs.fileRead env h len
  | .fileWrite h data => do let _ ← Fs.fileWrite env h data
  | .fileWriteAt h offset data => do let _ ← Fs.fileWriteAt env h offset data
  | .fileTruncate h size => Fs.fileTruncate env h size
  | .fileClose h => Fs.fileClose h
  | .checkoutCommit commit => Loom.checkoutCommit env.toEnv ns commit
  | .checkoutBranch branch => Fs.checkoutBranch env ns branch
  | .restoreFile rev path => Fs.restoreFile env ns rev path
  | .restorePath rev pre => Fs.restorePath env ns rev pre

end UldrenLoom.Fs
