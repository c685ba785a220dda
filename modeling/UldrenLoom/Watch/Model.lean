import UldrenLoom.Vcs.Merge
import UldrenLoom.Vcs.RegistryCodec

/-!
# Watching a branch

A pull watch polls the first-parent history of a branch from a cursor on and reports what each commit
changes.
-/

set_option linter.unusedSectionVars false

namespace UldrenLoom.Watch

open ByteString Fallible Vcs List

variable {D : Type} [LinearOrder D] [ToString D] {hash : Stored D → D}

/-! ## First parents -/

/-- The first parents from a commit on, newest first. Of a history without cycles there are at most as
many as there are objects. -/
def logFrom (s : ContentStore hash) : (fuel : ℕ) → Option D → Result (List D)
  | _, none => .ok []
  | 0, some _ => .error (.corrupt "first parents descend from each other")
  | fuel + 1, some d => do
    let commit ← getCommit s d
    let rest ← logFrom s fuel commit.parents.head?
    .ok (d :: rest)

/-- The first parents of a branch, newest first. -/
def logUnchecked (L : Loom hash) (ns : WorkspaceId) (branch : Path) : Result (List D) := do
  logFrom L.heap.store L.heap.store.size (← L.registry.branchTip ns branch)

/-! ## Changes -/

/-- What became of a path. -/
inductive ChangeKind where
  | added
  | modified
  | deleted
deriving Repr, DecidableEq

/-- The kind in an event. -/
def changeKindTag : ChangeKind → String
  | .added => "added"
  | .modified => "modified"
  | .deleted => "deleted"

/-- The domain of a path: a facet's name below the facets' directory, files elsewhere. -/
def watchDomainForPath (path : Path) : Option FacetKind :=
  if ".loom/facets".toList.isPrefixOf path then
    match path.drop ".loom/facets".toList.length with
    | '/' :: rest => (FacetKind.parse (String.ofList (rest.takeWhile (· ≠ '/')))).toOption
    | _ => none
  else some .files

/-- The support table has every facet but the version control itself; files alone are stable. -/
def watchDomainSupport (facet : FacetKind) : Option Bool :=
  if facet = .vcs then none else some (facet = .files)

/-- A changed path, with its digests before and after. -/
structure FileWatchChange (D : Type) where
  path : Path
  kind : ChangeKind
  before : Option D
  after : Option D

/-- The changes of a commit: of files, and the other domains it touches. -/
structure CommitWatchChanges (D : Type) where
  fileChanges : List (FileWatchChange D)
  unsupportedDomains : SortedSet FacetKind

/-- File a change under its domain. -/
def CommitWatchChanges.addPathChange (acc : CommitWatchChanges D) (c : FileWatchChange D) :
    CommitWatchChanges D :=
  match watchDomainForPath c.path with
  | some .files => ⟨acc.fileChanges ++ [c], acc.unsupportedDomains⟩
  | some facet =>
    if (watchDomainSupport facet).isSome then
      ⟨acc.fileChanges, acc.unsupportedDomains.insert facet⟩
    else acc
  | none => acc

/-- The digest an entry points to. -/
def stagedEntryDigest : StagedEntry D → D
  | .file f => f.contentAddr
  | .table root | .stream root | .timeSeries root | .graph root | .ledger root | .columnar root
  | .document root => root

/-- What becomes of a path between two trees. -/
def changeAt (before after : WorkTree D) (path : Path) : Option (FileWatchChange D) :=
  let change kind : FileWatchChange D :=
    ⟨path, kind, (before.get path).map stagedEntryDigest, (after.get path).map stagedEntryDigest⟩
  match before.get path, after.get path with
  | none, some _ => some (change .added)
  | some _, none => some (change .deleted)
  | some a, some b => if a ≠ b then some (change .modified) else none
  | none, none => none

/-- The paths a commit changes, by domain. -/
def watchCommitChanges (s : ContentStore hash) (parent : Option D) (commit : D) :
    Result (CommitWatchChanges D) :=
  match parent with
  | some parent => do
    let (before, _) ← flattenCommit s parent
    let (after, _) ← flattenCommit s commit
    .ok (((mergedPaths before after).filterMap (changeAt before after)).foldl
      CommitWatchChanges.addPathChange ⟨[], .empty⟩)
  | none => do
    let (files, _) ← flattenCommit s commit
    .ok ((files.entries.map fun e => ⟨e.1, .added, none, some (stagedEntryDigest e.2)⟩).foldl
      CommitWatchChanges.addPathChange ⟨[], .empty⟩)

/-! ## Cursors and batches -/

/-- Where a watch stands, and what it selects. -/
structure WatchCursor (D : Type) where
  workspace : WorkspaceId
  branch : Path
  commit : Option D
  intraCommitIndex : UInt32
  facet : Option FacetKind
  pathPrefix : Option Path
  changeKinds : List ChangeKind

/-- A change as events carry it. -/
structure DomainChange (D : Type) where
  domain : String
  schemaVersion : UInt32
  kind : String
  key : Bytes
  before : Option D
  after : Option D

/-- A domain whose changes are not reported in detail. -/
structure UnsupportedDomainDetail where
  domain : String
  capability : String

/-- What is reported of one commit. -/
structure ChangeEvent (D : Type) where
  workspace : WorkspaceId
  branch : Path
  commit : D
  parent : Option D
  seq : ℕ
  changes : List (DomainChange D)
  unsupportedDomains : List UnsupportedDomainDetail
  pathChanges : List (Path × ChangeKind)

/-- The events of a poll, and where the next one goes on. -/
structure WatchBatch (D : Type) where
  events : List (ChangeEvent D)
  next : WatchCursor D

/-- The read decisions on refs, paths and facets. -/
structure Rights where
  authorizeRef : WorkspaceId → Path → Result Unit
  authorizePath : WorkspaceId → Path → Result Unit
  authorize : WorkspaceId → FacetKind → Result Unit

/-- A watch may select a facet whose changes are reported. -/
def ensureSupportedFacet (facet : FacetKind) : Result Unit :=
  match watchDomainSupport facet with
  | some true => .ok ()
  | some false => .error ⟨.unsupported, "watch detail for domain '" ++ facet.asStr ++
      "' requires unsupported capability 'watch.domain." ++ facet.asStr ++ "'"⟩
  | none => .error ⟨.unsupported, "watch domain '" ++ facet.asStr ++ "' is not an event domain"⟩

/-- The error of a cursor at no known commit. -/
def cursorInvalid : LoomError := ⟨.cursorInvalid, "invalid watch cursor"⟩

/-- The change of a file. -/
def DomainChange.file (c : FileWatchChange D) : DomainChange D :=
  ⟨"files", 1, changeKindTag c.kind, c.path.bytes, c.before, c.after⟩

/-- The detail of an unsupported domain. -/
def UnsupportedDomainDetail.fromFacet (facet : FacetKind) : Option UnsupportedDomainDetail :=
  match watchDomainSupport facet with
  | some false => some ⟨facet.asStr, "watch.domain." ++ facet.asStr⟩
  | _ => none

/-- Whether a decision allows; other errors than a denial are passed on. -/
def readAllowed : Result Unit → Result Bool
  | .ok () => .ok true
  | .error e => if e.code = .permissionDenied then .ok false else .error e

section Poll

variable (rights : Rights)

/-- The changes at paths the caller may read. -/
def authorizedFileChanges (ns : WorkspaceId) (changes : List (FileWatchChange D)) :
    Result (List (FileWatchChange D)) :=
  concatMap (fun c => do
    if ← readAllowed (rights.authorizePath ns c.path) then .ok [c] else .ok []) changes

/-- The unsupported domains the caller may read. -/
def authorizedUnsupportedDomains (ns : WorkspaceId) (domains : SortedSet FacetKind) :
    Result (List UnsupportedDomainDetail) :=
  concatMap (fun facet => do
    if ← readAllowed (rights.authorize ns facet) then .ok (UnsupportedDomainDetail.fromFacet facet).toList
    else .ok []) domains.elems

/-- The changes that a cursor selects. -/
def filterFileChanges (changes : List (FileWatchChange D)) (pathPrefix : Option Path)
    (changeKinds : List ChangeKind) : List (FileWatchChange D) :=
  changes.filter fun c =>
    pathPrefix.all (·.isPrefixOf c.path) && (changeKinds.isEmpty || changeKinds.contains c.kind)

/-- What a poll reports of a commit, if anything. -/
def scanCommit (s : ContentStore hash) (cursor : WatchCursor D) (commit : D) (seq : ℕ) :
    Result (Option (ChangeEvent D)) := do
  let parent := (← getCommit s commit).parents.head?
  let commitChanges ← watchCommitChanges s parent commit
  let fileChanges ← authorizedFileChanges rights cursor.workspace
    (filterFileChanges commitChanges.fileChanges cursor.pathPrefix cursor.changeKinds)
  let unsupported ← (if cursor.facet = some .files ∨ cursor.pathPrefix.isSome ∨ cursor.changeKinds ≠ []
    then .ok [] else authorizedUnsupportedDomains rights cursor.workspace commitChanges.unsupportedDomains)
  if fileChanges.isEmpty ∧ unsupported.isEmpty then .ok none
  else
    .ok (some ⟨cursor.workspace, cursor.branch, commit, parent, seq, fileChanges.map .file, unsupported,
      fileChanges.map fun c => (c.path, c.kind)⟩)

/-- Scan until the batch is full; the last one scanned is where the next poll goes on. -/
def collect {α β : Type} (f : α → Result (Option β)) (max : ℕ) :
    (pending : List α) → (events : List β) → (lastScanned : Option α) →
      Result (List β × Option α)
  | [], events, lastScanned => .ok (events, lastScanned)
  | a :: pending, events, lastScanned =>
    if events.length = max then .ok (events, lastScanned)
    else do
      let event ← f a
      collect f max pending (events ++ event.toList) (some a)

/-- Why a commit is not in the log: it was dropped, or never there. -/
def watchGapForCommit (L : Loom hash) (commit : D) : LoomError :=
  if (L.heap.store.get commit).isSome then
    ⟨.retainedGap, "watch cursor commit is outside retained replay"⟩
  else cursorInvalid

/-- How many commits of the log are newer than the cursor. -/
def WatchCursor.cutoff (L : Loom hash) (cursor : WatchCursor D) (log : List D) : Result ℕ :=
  cursor.commit.elim (.ok log.length) fun commit =>
    (log.idxOf? commit).elim (.error (watchGapForCommit L commit)) .ok

/-- The cursor after a commit. -/
def WatchCursor.advanced (cursor : WatchCursor D) (commit : D) : Result (WatchCursor D) :=
  if cursor.branch = [] then .error (.invalid "watch branch must not be empty")
  else .ok { cursor with commit := some commit, intraCommitIndex := 0 }

/-- A batch of events with the next cursor. -/
def watchPoll (L : Loom hash) (cursor : WatchCursor D) (max : ℕ) : Result (WatchBatch D) := do
  cursor.facet.elim (.ok ()) ensureSupportedFacet
  rights.authorizeRef cursor.workspace (Loom.branchRef cursor.branch)
  let log ← logUnchecked L cursor.workspace cursor.branch
  let cutoff ← cursor.cutoff L log
  -- the commits before the cutoff from the oldest on, each with its place in the history
  let pending := (log.reverse.zipIdx 1).drop (log.length - cutoff)
  let (events, lastScanned) ←
    collect (fun c => scanCommit rights L.heap.store cursor c.1 c.2) max pending [] none
  let next ← lastScanned.elim (.ok cursor) fun c => cursor.advanced c.1
  .ok ⟨events, next⟩

end Poll

/-! ## Histories -/

/-- Each commit of the list has the next one as its first parent, and the last one has none. -/
def IsLog (s : ContentStore hash) : List D → Prop
  | [] => True
  | d :: rest => (∃ c, getCommit s d = .ok c ∧ c.parents.head? = rest.head?) ∧ IsLog s rest

theorem logFrom_eq_ok {s : ContentStore hash} {fuel : ℕ} {tip : Option D} {log : List D}
    (h : logFrom s fuel tip = .ok log) : IsLog s log ∧ log.head? = tip := by
  induction fuel generalizing tip log with
  | zero =>
    cases tip with
    | none => cases h; exact ⟨trivial, rfl⟩
    | some d => cases h
  | succ fuel ih =>
    cases tip with
    | none => cases h; exact ⟨trivial, rfl⟩
    | some d =>
      obtain ⟨c, hc, h⟩ := of_bind h
      obtain ⟨rest, hrest, h⟩ := of_bind h
      cases h
      obtain ⟨hlog, hhead⟩ := ih hrest
      exact ⟨⟨⟨c, hc, hhead.symm⟩, hlog⟩, rfl⟩

/-- **The log of a branch runs from its tip to a root.** -/
theorem logUnchecked_eq_ok {L : Loom hash} {ns : WorkspaceId} {branch : Path} {log : List D}
    (h : logUnchecked L ns branch = .ok log) :
    IsLog L.heap.store log ∧ L.registry.branchTip ns branch = .ok log.head? := by
  obtain ⟨tip, htip, h⟩ := of_bind h
  obtain ⟨hlog, rfl⟩ := logFrom_eq_ok h
  exact ⟨hlog, htip⟩

namespace IsLog

variable {s t : ContentStore hash} {log log' : List D}

theorem of_append (h : IsLog s (log ++ log')) : IsLog s log' := by
  induction log with
  | nil => exact h
  | cons d rest ih => exact ih h.2

theorem eq_of_head? (h : IsLog s log) (h' : IsLog s log') (hhead : log.head? = log'.head?) :
    log = log' := by
  induction log generalizing log' with
  | nil => exact (List.head?_eq_none_iff.mp hhead.symm).symm
  | cons d rest ih =>
    obtain ⟨rest', rfl⟩ := List.head?_eq_some_iff.mp hhead.symm
    obtain ⟨⟨c, hc, hnext⟩, hrest⟩ := h
    obtain ⟨⟨c', hc', hnext'⟩, hrest'⟩ := h'
    cases hc.symm.trans hc'
    rw [ih hrest hrest' (hnext.symm.trans hnext')]

theorem notMem_of_append {d : D} (h : IsLog s (log ++ d :: log')) : d ∉ log := by
  intro hd
  obtain ⟨front, back, rfl⟩ := append_of_mem hd
  rw [append_assoc, cons_append] at h
  have hback : IsLog s ((d :: back) ++ d :: log') := h.of_append
  have heq := hback.eq_of_head? hback.of_append rfl
  have hlen := congrArg List.length heq
  simp at hlen
  omega

theorem nodup (h : IsLog s log) : log.Nodup := by
  induction log with
  | nil => exact nodup_nil
  | cons d rest ih =>
    refine nodup_cons.mpr ⟨fun hd => ?_, ih h.2⟩
    obtain ⟨front, back, rfl⟩ := append_of_mem hd
    have hsplit : IsLog s ((d :: front) ++ d :: back) := h
    exact hsplit.notMem_of_append mem_cons_self

end IsLog

/-! ## Reported changes -/

/-- The path is a file's. -/
def IsFile (path : Path) : Prop := watchDomainForPath path = some .files

instance (path : Path) : Decidable (IsFile path) := inferInstanceAs (Decidable (_ = _))

/-- What the path holds after the change. -/
def FileWatchChange.result (c : FileWatchChange D) : Option D :=
  if c.kind = .deleted then none else c.after

/-- The digests of the files of a tree. -/
def fileMap (t : WorkTree D) (path : Path) : Option D :=
  if IsFile path then (t.get path).map stagedEntryDigest else none

/-- The changes are those of the files between two trees. -/
structure Describes (before after : WorkTree D) (cs : List (FileWatchChange D)) : Prop where
  path : ∀ p, p ∈ cs.map (·.path) ↔ IsFile p ∧ before.get p ≠ after.get p
  result : ∀ c ∈ cs, c.result = fileMap after c.path

theorem fileChanges_foldl (cs : List (FileWatchChange D)) (acc : CommitWatchChanges D) :
    (cs.foldl CommitWatchChanges.addPathChange acc).fileChanges =
      acc.fileChanges ++ cs.filter (IsFile ·.path) := by
  induction cs generalizing acc with
  | nil => simp
  | cons c cs ih =>
    rw [foldl_cons, ih, CommitWatchChanges.addPathChange, filter_cons]
    by_cases hc : IsFile c.path
    · simp only [show watchDomainForPath c.path = _ from hc, decide_eq_true hc, if_true,
        append_assoc, singleton_append]
    · rw [if_neg (by simpa using hc)]
      split
      · next h => exact absurd h hc
      · split_ifs <;> rfl
      · rfl

variable {before after : WorkTree D}

theorem changeAt_eq_some {path : Path} {c : FileWatchChange D}
    (h : changeAt before after path = some c) :
    c.path = path ∧ c.result = (after.get path).map stagedEntryDigest ∧
      before.get path ≠ after.get path := by
  unfold changeAt at h
  cases hb : before.get path <;> cases ha : after.get path <;> simp only [hb, ha] at h
  · cases h
  · cases h; exact ⟨rfl, rfl, by simp⟩
  · cases h; exact ⟨rfl, rfl, by simp⟩
  · split_ifs at h with hab
    cases h
    exact ⟨rfl, rfl, by simpa using hab⟩

theorem exists_changeAt {path : Path} (h : before.get path ≠ after.get path) :
    ∃ c, changeAt before after path = some c := by
  unfold changeAt
  cases hb : before.get path <;> cases ha : after.get path <;> simp only [hb, ha] at h ⊢
  · exact absurd rfl h
  · exact ⟨_, rfl⟩
  · exact ⟨_, rfl⟩
  · exact ⟨_, if_pos (by simpa using h)⟩

/-- The changes of a list that has them all are those of the files. -/
theorem describes_filter {cs : List (FileWatchChange D)}
    (hpath : ∀ p, before.get p ≠ after.get p → p ∈ cs.map (·.path))
    (hcs : ∀ c ∈ cs, before.get c.path ≠ after.get c.path ∧
      c.result = (after.get c.path).map stagedEntryDigest) :
    Describes before after (cs.filter (IsFile ·.path)) := by
  constructor
  · intro p
    constructor
    · intro hp
      obtain ⟨c, hc, rfl⟩ := mem_map.mp hp
      obtain ⟨hc, hfile⟩ := mem_filter.mp hc
      exact ⟨of_decide_eq_true hfile, (hcs c hc).1⟩
    · rintro ⟨hfile, hne⟩
      obtain ⟨c, hc, rfl⟩ := mem_map.mp (hpath p hne)
      exact mem_map.mpr ⟨c, mem_filter.mpr ⟨hc, decide_eq_true hfile⟩, rfl⟩
  · intro c hc
    obtain ⟨hc, hfile⟩ := mem_filter.mp hc
    rw [(hcs c hc).2, fileMap, if_pos (of_decide_eq_true hfile)]

/-- The files of a commit; there are none before the first. -/
def filesAt (s : ContentStore hash) : Option D → Result (WorkTree D)
  | none => .ok .empty
  | some d => do
    let (files, _) ← flattenCommit s d
    .ok files

/-- **A commit is reported with the changes of its files** from its first parent on. -/
theorem describes_watchCommitChanges {s : ContentStore hash} {parent : Option D} {commit : D}
    (hbefore : filesAt s parent = .ok before) (hafter : filesAt s (some commit) = .ok after) :
    ∃ changes, watchCommitChanges s parent commit = .ok changes ∧
      Describes before after changes.fileChanges := by
  obtain ⟨⟨after, dirs⟩, hflat, h⟩ := of_bind hafter
  cases h
  cases parent with
  | some parent =>
    obtain ⟨⟨before, dirs'⟩, hflat', h⟩ := of_bind hbefore
    cases h
    refine ⟨_, bind_eq_ok.mpr ⟨_, hflat', bind_eq_ok.mpr ⟨_, hflat, rfl⟩⟩, ?_⟩
    rw [fileChanges_foldl, nil_append]
    refine describes_filter (fun p hne => ?_) fun c hc => ?_
    · obtain ⟨c, hc⟩ := exists_changeAt hne
      refine mem_map.mpr ⟨c, mem_filterMap.mpr ⟨p, ?_, hc⟩, (changeAt_eq_some hc).1⟩
      rw [mergedPaths, SortedSet.mem_elems, SortedSet.mem_ofList, mem_append, SortedMap.mem_keys,
        SortedMap.mem_keys]
      by_contra hnone
      obtain ⟨hb, ha⟩ := not_or.mp hnone
      exact hne ((not_not.mp hb).trans (not_not.mp ha).symm)
    · obtain ⟨p, _, hp⟩ := mem_filterMap.mp hc
      obtain ⟨rfl, hresult, hne⟩ := changeAt_eq_some hp
      exact ⟨hne, hresult⟩
  | none =>
    cases hbefore
    refine ⟨_, bind_eq_ok.mpr ⟨_, hflat, rfl⟩, ?_⟩
    rw [fileChanges_foldl, nil_append]
    refine describes_filter (fun p hne => ?_) fun c hc => ?_
    · cases hget : after.get p with
      | none => exact absurd (SortedMap.get_empty p) (hget ▸ hne)
      | some e =>
        rw [map_map]
        exact mem_map.mpr ⟨(p, e), SortedMap.get_eq_some.mp hget, rfl⟩
    · obtain ⟨⟨p, e⟩, he, rfl⟩ := mem_map.mp hc
      have hget := SortedMap.get_eq_some.mpr he
      refine ⟨by simp [hget], by simp [FileWatchChange.result, hget]⟩

end UldrenLoom.Watch
