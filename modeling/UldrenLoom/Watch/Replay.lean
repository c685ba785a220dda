import UldrenLoom.Lib.Machine
import UldrenLoom.Vcs.FreeDigest
import UldrenLoom.Watch.Model

/-!
# Replaying a watched branch

Polls in batches of any size, while the branch advances, report every commit that changes files once
and in order; the reported changes replay the files of the branch.

* **`watchPoll_eq_ok`**: what a poll reports, and where the cursor goes.
-/

set_option linter.unusedSectionVars false

namespace UldrenLoom.Watch

open ByteString Fallible Machine Vcs List Option

variable {D : Type} [LinearOrder D] [ToString D] {hash : Stored D → D} {s t : ContentStore hash}

/-! ## Growing stores -/

theorem concatMap_mono {ε α β : Type} {f g : α → Except ε (List β)} {xs : List α} {out : List β}
    (h : ∀ x ys, x ∈ xs → f x = .ok ys → g x = .ok ys) (hf : concatMap f xs = .ok out) :
    concatMap g xs = .ok out := by
  induction xs generalizing out with
  | nil => exact hf
  | cons x xs ih =>
    obtain ⟨ys, hys, hf⟩ := of_bind hf
    obtain ⟨zs, hzs, hf⟩ := of_bind hf
    exact bind_eq_ok.mpr ⟨ys, h x ys mem_cons_self hys, bind_eq_ok.mpr ⟨zs,
      ih (fun y ys hy => h y ys (mem_cons_of_mem x hy)) hzs, hf⟩⟩

theorem foldlM_mono {ε α β : Type} {f g : β → α → Except ε β} {xs : List α} {b c : β}
    (h : ∀ b x c, x ∈ xs → f b x = .ok c → g b x = .ok c) (hf : xs.foldlM f b = .ok c) :
    xs.foldlM g b = .ok c := by
  induction xs generalizing b with
  | nil => exact hf
  | cons x xs ih =>
    rw [foldlM_cons] at hf ⊢
    obtain ⟨b', hb', hf⟩ := of_bind hf
    exact bind_eq_ok.mpr ⟨b', h b x b' mem_cons_self hb',
      ih (fun b y c hy => h b y c (mem_cons_of_mem x hy)) hf⟩

theorem size_mono (h : s ≤ t) : s.size ≤ t.size := by
  refine (subperm_of_subset s.objects.nodup_keys fun d hd => ?_).length_le
  obtain ⟨o, ho⟩ := ne_none_iff_exists'.mp (SortedMap.mem_keys.mp hd)
  exact SortedMap.mem_keys_of_get (h d o ho)

theorem collectDirEntries_mono (h : s ≤ t) {left : ℕ} {node : D} {entries : List (TreeEntry D)}
    (hs : collectDirEntries s left node = .ok entries) : collectDirEntries t left node = .ok entries := by
  induction left generalizing node entries with
  | zero => cases hs
  | succ left ih =>
    obtain ⟨o, ho, hs⟩ := of_bind hs
    refine bind_eq_ok.mpr ⟨o, getObject_mono h ho, ?_⟩
    cases o with
    | tree es =>
      simp only at hs ⊢
      split_ifs at hs ⊢ with hkinds
      · exact hs
      · refine concatMap_mono (fun e out _ hout => ?_) hs
        split_ifs at hout ⊢
        exact ih hout
    | _ => cases hs

theorem flattenTree_mono (h : s ≤ t) {fuel fuel' : ℕ} (hle : fuel ≤ fuel') {tree : D} {pre : Path}
    {acc out : WorkTree D × DirSet} (hs : flattenTree s fuel tree pre acc = .ok out) :
    flattenTree t fuel' tree pre acc = .ok out := by
  induction fuel generalizing fuel' tree pre acc out with
  | zero => cases hs
  | succ fuel ih =>
    obtain ⟨fuel', rfl⟩ : ∃ k, fuel' = k + 1 := ⟨fuel' - 1, by omega⟩
    obtain ⟨entries, hentries, hs⟩ := of_bind hs
    refine bind_eq_ok.mpr ⟨entries, collectDirEntries_mono h hentries, ?_⟩
    refine foldlM_mono (fun acc e out _ hout => ?_) hs
    split_ifs at hout ⊢
    · exact ih (by omega) hout
    · exact hout

theorem filesAt_mono (h : s ≤ t) {d : Option D} {files : WorkTree D} (hs : filesAt s d = .ok files) :
    filesAt t d = .ok files := by
  cases d with
  | none => exact hs
  | some d =>
    obtain ⟨out, hout, hs⟩ := of_bind hs
    obtain ⟨c, hc, hout⟩ := of_bind hout
    exact bind_eq_ok.mpr ⟨out, bind_eq_ok.mpr ⟨c, getCommit_mono h hc,
      flattenTree_mono h (size_mono h) hout⟩, hs⟩

/-! ## Reports -/

/-- The files of every commit can be read. -/
def Readable (s : ContentStore hash) (log : List D) : Prop :=
  ∀ d ∈ log, ∃ files, filesAt s (some d) = .ok files

theorem Readable.head? {log : List D} (h : Readable s log) :
    ∃ files, filesAt s log.head? = .ok files := by
  cases log with
  | nil => exact ⟨_, rfl⟩
  | cons d rest => exact h d mem_cons_self

def fileMapAt (s : ContentStore hash) (d : Option D) : Path → Option D :=
  match filesAt s d with
  | .ok files => fileMap files
  | .error _ => fun _ => none

theorem fileMapAt_eq {d : Option D} {files : WorkTree D} (h : filesAt s d = .ok files) :
    fileMapAt s d = fileMap files := by rw [fileMapAt, h]

/-- The commit changes files of its first parent. -/
def ChangesFiles (s : ContentStore hash) (d : D) : Prop :=
  ∃ c before after, getCommit s d = .ok c ∧ filesAt s c.parents.head? = .ok before ∧
    filesAt s (some d) = .ok after ∧ ∃ p, IsFile p ∧ before.get p ≠ after.get p

/-- Make the path changes of an event: its path, its kind and its new digest. -/
def ChangeEvent.applyTo (m : Path → Option D) (e : ChangeEvent D) : Path → Option D :=
  (e.pathChanges.zip e.changes).foldl (fun m c =>
    Function.update m c.1.1 (if c.1.2 = .deleted then none else c.2.after)) m

open scoped Classical in
/-- The events are those of the commits `done` that change files, the oldest first. -/
structure Reports (s : ContentStore hash) (older done : List D) (events : List (ChangeEvent D)) :
    Prop where
  commits : events.map (·.commit) = done.reverse.filter (ChangesFiles s ·)
  files : events.foldl ChangeEvent.applyTo (fileMapAt s older.head?) = fileMapAt s (done ++ older).head?

theorem reports_nil (s : ContentStore hash) (older : List D) : Reports s older [] [] := ⟨rfl, rfl⟩

variable {older : List D}

theorem reports_append {done done' : List D} {events events' : List (ChangeEvent D)}
    (h : Reports s older done events) (h' : Reports s (done ++ older) done' events') :
    Reports s older (done' ++ done) (events ++ events') := by
  constructor
  · rw [map_append, h.commits, h'.commits, reverse_append, filter_append]
  · rw [foldl_append, h.files, h'.files, append_assoc]

theorem foldl_update {cs : List (FileWatchChange D)} {target : Path → Option D}
    (h : ∀ c ∈ cs, c.result = target c.path) (m : Path → Option D) (p : Path) :
    cs.foldl (fun m c => Function.update m c.path c.result) m p =
      if p ∈ cs.map (·.path) then target p else m p := by
  induction cs generalizing m with
  | nil => simp
  | cons c cs ih =>
    obtain ⟨hc, hcs⟩ := forall_mem_cons.mp h
    rw [foldl_cons, ih hcs]
    by_cases hp : p = c.path
    · subst hp
      simp [hc]
    · simp [hp]

/-- Changes that describe a step between trees make the files of one those of the other. -/
theorem applyTo_of_describes {before after : WorkTree D} {cs : List (FileWatchChange D)}
    (h : Describes before after cs) {e : ChangeEvent D} (hchanges : e.changes = cs.map .file)
    (hpaths : e.pathChanges = cs.map fun c => (c.path, c.kind)) :
    e.applyTo (fileMap before) = fileMap after := by
  have hfold : e.applyTo (fileMap before) =
      cs.foldl (fun m c => Function.update m c.path c.result) (fileMap before) := by
    rw [ChangeEvent.applyTo, hchanges, hpaths, zip_map', foldl_map]
    rfl
  funext p
  rw [hfold, foldl_update h.result]
  split_ifs with hp
  · rfl
  · rw [fileMap, fileMap]
    split_ifs with hfile
    · rw [not_not.mp fun hne => hp ((h.path p).mpr ⟨hfile, hne⟩)]
    · rfl

/-- Everything may be read. -/
structure Rights.Full (rights : Rights) : Prop where
  ref : ∀ ns r, rights.authorizeRef ns r = .ok ()
  path : ∀ ns p, rights.authorizePath ns p = .ok ()

/-- The cursor selects all files of the branch. -/
structure Selects (ns : WorkspaceId) (branch : Path) (cursor : WatchCursor D) : Prop where
  workspace : cursor.workspace = ns
  branch : cursor.branch = branch
  facet : cursor.facet = some .files
  pathPrefix : cursor.pathPrefix = none
  changeKinds : cursor.changeKinds = []

section Full

variable {rights : Rights} (hfull : rights.Full) {ns : WorkspaceId} {branch : Path}
  {cursor : WatchCursor D} (hsel : Selects ns branch cursor) {older : List D}

include hfull hsel

/-- **A commit is reported just if it changes files.** -/
theorem reports_scanCommit {d : D} (hlog : IsLog s (d :: older)) (hread : Readable s (d :: older))
    (seq : ℕ) :
    ∃ event, scanCommit rights s cursor d seq = .ok event ∧ Reports s older [d] event.toList := by
  obtain ⟨⟨c, hc, hparent⟩, _⟩ := hlog
  obtain ⟨before, hbefore⟩ := Readable.head? fun x hx => hread x (mem_cons_of_mem d hx)
  obtain ⟨after, hafter⟩ := hread d mem_cons_self
  obtain ⟨changes, hchanges, hdesc⟩ := describes_watchCommitChanges (hparent ▸ hbefore) hafter
  rw [← hparent] at hbefore
  have hall : filterFileChanges changes.fileChanges none [] = changes.fileChanges := by
    simp [filterFileChanges]
  have hauth : authorizedFileChanges rights cursor.workspace changes.fileChanges =
      .ok changes.fileChanges := by
    have hone : List.Forall₂ (fun y c => (do
        if ← readAllowed (rights.authorizePath cursor.workspace c.path) then .ok [c] else .ok [] :
          Result (List (FileWatchChange D))) = .ok [y])
        changes.fileChanges changes.fileChanges :=
      forall₂_same.mpr fun c _ => by rw [hfull.path]; rfl
    rw [authorizedFileChanges, concatMap_of_forall₂ hone, flatMap_singleton']
  have hiff : ChangesFiles s d ↔ changes.fileChanges ≠ [] := by
    constructor
    · rintro ⟨c', before', after', hc', hbefore', hafter', p, hp⟩
      cases hc.symm.trans hc'
      cases hbefore.symm.trans hbefore'
      cases hafter.symm.trans hafter'
      intro hnil
      have hmem := (hdesc.path p).mpr hp
      rw [hnil] at hmem
      cases hmem
    · intro hne
      obtain ⟨x, hx⟩ := exists_mem_of_ne_nil _ hne
      exact ⟨c, before, after, hc, hbefore, hafter, x.path, (hdesc.path _).mp (mem_map_of_mem hx)⟩
  have hfiles : fileMapAt s older.head? = fileMap before := by
    rw [← hparent, fileMapAt_eq hbefore]
  simp only [scanCommit, hc, ok_bind, hchanges, hsel.pathPrefix, hsel.changeKinds, hall, hauth,
    hsel.facet, true_or, if_true, isEmpty_nil, and_true]
  by_cases hnil : changes.fileChanges = []
  · refine ⟨none, by simp [hnil], ?_, ?_⟩
    · simp [show ¬ ChangesFiles s d from fun h => hiff.mp h hnil]
    · have hsame : fileMap before = fileMap after := by
        have happly := applyTo_of_describes hdesc (e := ⟨ns, branch, d, none, 0, [], [], []⟩)
          (by simp [hnil]) (by simp [hnil])
        exact happly
      simp [hfiles, hsame, fileMapAt_eq hafter]
  · refine ⟨_, if_neg (by simpa using hnil), ?_, ?_⟩
    · simp [show ChangesFiles s d from hiff.mpr hnil]
    · have happly := applyTo_of_describes hdesc
        (e := ⟨cursor.workspace, cursor.branch, d, c.parents.head?, seq,
          changes.fileChanges.map .file, [], changes.fileChanges.map fun c => (c.path, c.kind)⟩) rfl rfl
      simp only [toList_some, foldl_cons, foldl_nil, hfiles, happly]
      exact (fileMapAt_eq hafter).symm

/-- **A scan reports the commits it passes**, and passes one if there is one. -/
theorem reports_collect (max : ℕ) {pending : List D} (hlog : IsLog s (pending.reverse ++ older))
    (hread : Readable s (pending.reverse ++ older)) (k : ℕ) (events : List (ChangeEvent D))
    (last : Option (D × ℕ)) :
    ∃ done todo reported last', pending = done ++ todo ∧
      collect (fun c => scanCommit rights s cursor c.1 c.2) max (pending.zipIdx k) events last =
        .ok (events ++ reported, last') ∧
      last'.map Prod.fst = done.getLast?.or (last.map Prod.fst) ∧
      Reports s older done.reverse reported ∧ (events.length < max → pending ≠ [] → done ≠ []) := by
  induction pending generalizing older k events last with
  | nil => exact ⟨[], [], [], last, rfl, by simp [collect], by simp, reports_nil s older, by simp⟩
  | cons d pending ih =>
    rw [zipIdx_cons, collect]
    by_cases hmax : events.length = max
    · rw [if_pos hmax]
      exact ⟨[], _, [], last, rfl, by simp, by simp, reports_nil s older, by omega⟩
    · rw [reverse_cons, append_assoc] at hlog hread
      have hread' : Readable s (d :: older) := fun x hx => hread x (mem_append_right _ hx)
      obtain ⟨event, hevent, hreport⟩ := reports_scanCommit hfull hsel hlog.of_append hread' k
      obtain ⟨done, todo, reported, last', rfl, hcollect, hlast, hreports, -⟩ :=
        ih hlog hread (k + 1) (events ++ event.toList) (some (d, k))
      refine ⟨d :: done, todo, event.toList ++ reported, last', rfl, ?_, ?_, ?_, by simp⟩
      · rw [if_neg hmax, hevent, ok_bind, hcollect, append_assoc]
      · rw [hlast, List.getLast?_cons]
        cases done.getLast? <;> rfl
      · rw [reverse_cons]
        exact reports_append hreport hreports

/-- **A poll reports the commits it passes and moves the cursor past them.** -/
theorem watchPoll_eq_ok {L : Loom hash} {rest : List D}
    (hlog : logUnchecked L ns branch = .ok (rest ++ older))
    (hread : Readable L.heap.store (rest ++ older)) (hcursor : cursor.commit = older.head?)
    {max : ℕ} (hmax : 0 < max) :
    ∃ todo done batch, rest = todo ++ done ∧ watchPoll rights L cursor max = .ok batch ∧
      Selects ns branch batch.next ∧ batch.next.commit = (done ++ older).head? ∧
      Reports L.heap.store older done batch.events ∧ (rest ≠ [] → done ≠ []) := by
  obtain ⟨hislog, htip⟩ := logUnchecked_eq_ok hlog
  have hbranch : cursor.branch ≠ [] := by
    rw [hsel.branch]
    rintro rfl
    cases htip
  have hcutoff : cursor.cutoff L (rest ++ older) = .ok rest.length := by
    cases older with
    | nil => simp [WatchCursor.cutoff, hcursor]
    | cons d older =>
      have hnot := hislog.notMem_of_append
      have hidx : (rest ++ d :: older).idxOf? d = some rest.length := by
        have hnone : rest.findIdx? (· == d) = none := List.findIdx?_eq_none_iff.mpr fun x hx =>
          beq_eq_false_iff_ne.mpr (ne_of_mem_of_not_mem hx hnot)
        rw [List.idxOf?, List.findIdx?_append, hnone]
        simp [List.findIdx?_cons]
      simp [WatchCursor.cutoff, hcursor, hidx]
  have hpending : ((rest ++ older).reverse.zipIdx 1).drop ((rest ++ older).length - rest.length) =
      rest.reverse.zipIdx (1 + older.length) := by
    rw [reverse_append, zipIdx_append, drop_left' (by simp)]
    simp
  rw [← reverse_reverse rest] at hislog hread
  obtain ⟨done, todo, events, last, hsplit, hcollect, hlast, hreports, hprogress⟩ :=
    reports_collect hfull hsel max hislog hread (1 + older.length) [] none
  have hpoll : watchPoll rights L cursor max =
      (last.elim (.ok cursor) fun c => cursor.advanced c.1) >>= fun next => .ok ⟨events, next⟩ := by
    simp only [watchPoll, hsel.facet, elim_some, ensureSupportedFacet, watchDomainSupport, hfull.ref,
      hsel.workspace, hsel.branch, hlog, hcutoff, hpending, hcollect, ok_bind, nil_append]
    rfl
  have hrest : rest = todo.reverse ++ done.reverse := by
    rw [← reverse_append, ← hsplit, reverse_reverse]
  have hdone : rest ≠ [] → done.reverse ≠ [] := fun hne =>
    mt reverse_eq_nil_iff.mp (hprogress hmax (mt reverse_eq_nil_iff.mp hne))
  rw [map_none, or_none, ← List.head?_reverse] at hlast
  cases last with
  | none =>
    have hnil := List.head?_eq_none_iff.mp hlast.symm
    rw [hnil] at hreports hrest hdone
    exact ⟨_, [], ⟨events, cursor⟩, hrest, hpoll, hsel, hcursor, hreports, hdone⟩
  | some c =>
    rw [elim_some, WatchCursor.advanced, if_neg hbranch, ok_bind] at hpoll
    refine ⟨_, _, _, hrest, hpoll, ?_, ?_, hreports, hdone⟩
    · exact ⟨hsel.workspace, hsel.branch, hsel.facet, hsel.pathPrefix, hsel.changeKinds⟩
    · rw [List.head?_append, ← hlast]
      rfl

end Full

/-! ## Runs -/

/-- The branch and its history, the cursor, and the events polled so far. -/
structure State (hash : Stored D → D) where
  loom : Loom hash
  cursor : WatchCursor D
  events : List (ChangeEvent D)

/-- A poll, or a later state of the engine. -/
inductive Input (hash : Stored D → D) where
  | poll (max : ℕ)
  | advance (loom : Loom hash)

def step (rights : Rights) (i : Input hash) (W : State hash) : Result Unit × State hash :=
  match i with
  | .poll max =>
    match watchPoll rights W.loom W.cursor max with
    | .ok batch => (.ok (), ⟨W.loom, batch.next, W.events ++ batch.events⟩)
    | .error e => (.error e, W)
  | .advance loom => (.ok (), { W with loom := loom })

/-- Batches are not empty, and the branch only advances along first parents. -/
def Allowed (ns : WorkspaceId) (branch : Path) (W : State hash) : Input hash → Prop
  | .poll max => 0 < max
  | .advance loom => W.loom.heap.store ≤ loom.heap.store ∧ ∃ fresh log,
      logUnchecked W.loom ns branch = .ok log ∧ logUnchecked loom ns branch = .ok (fresh ++ log) ∧
        Readable loom.heap.store fresh

/-- The cursor has passed the commits `done` on top of `older`, and the events are theirs. -/
structure Replayed (ns : WorkspaceId) (branch : Path) (older : List D) (W : State hash)
    (done todo : List D) : Prop where
  log : logUnchecked W.loom ns branch = .ok (todo ++ (done ++ older))
  readable : Readable W.loom.heap.store (todo ++ (done ++ older))
  selects : Selects ns branch W.cursor
  cursor : W.cursor.commit = (done ++ older).head?
  reports : Reports W.loom.heap.store older done W.events

theorem Readable.mono (h : s ≤ t) {log : List D} (hs : Readable s log) : Readable t log := by
  intro d hd
  obtain ⟨files, hfiles⟩ := hs d hd
  exact ⟨files, filesAt_mono h hfiles⟩

theorem changesFiles_congr (h : s ≤ t) {d : D} (hlog : IsLog s (d :: older))
    (hread : Readable s (d :: older)) : ChangesFiles t d ↔ ChangesFiles s d := by
  obtain ⟨⟨c, hc, hparent⟩, _⟩ := hlog
  obtain ⟨before, hbefore⟩ := Readable.head? fun x hx => hread x (mem_cons_of_mem d hx)
  obtain ⟨after, hafter⟩ := hread d mem_cons_self
  rw [← hparent] at hbefore
  constructor
  · rintro ⟨c', before', after', hc', hbefore', hafter', hp⟩
    obtain rfl := Except.ok.inj ((getCommit_mono h hc).symm.trans hc')
    obtain rfl := Except.ok.inj ((filesAt_mono h hbefore).symm.trans hbefore')
    obtain rfl := Except.ok.inj ((filesAt_mono h hafter).symm.trans hafter')
    exact ⟨c, before, after, hc, hbefore, hafter, hp⟩
  · rintro ⟨c', before', after', hc', hbefore', hafter', hp⟩
    exact ⟨c', before', after', getCommit_mono h hc', filesAt_mono h hbefore', filesAt_mono h hafter', hp⟩

theorem Reports.mono (h : s ≤ t) {done : List D} {events : List (ChangeEvent D)}
    (hlog : IsLog s (done ++ older)) (hread : Readable s (done ++ older))
    (hs : Reports s older done events) : Reports t older done events := by
  have hfiles : ∀ log : List D, Readable s log → fileMapAt t log.head? = fileMapAt s log.head? := by
    intro log hlog
    obtain ⟨files, hf⟩ := hlog.head?
    rw [fileMapAt_eq hf, fileMapAt_eq (filesAt_mono h hf)]
  constructor
  · rw [hs.commits]
    refine filter_congr fun d hd => ?_
    obtain ⟨front, back, rfl⟩ := append_of_mem (mem_reverse.mp hd)
    rw [append_assoc] at hlog hread
    rw [decide_eq_decide]
    exact (changesFiles_congr h hlog.of_append fun x hx => hread x (mem_append_right _ hx)).symm
  · rw [hfiles older fun d hd => hread d (mem_append_right _ hd), hs.files, hfiles _ hread]

section Run

variable {rights : Rights} (hfull : rights.Full) {ns : WorkspaceId} {branch : Path}
  {older done todo : List D} {W : State hash}

include hfull

theorem replayed_poll {max : ℕ} (hmax : 0 < max) (h : Replayed ns branch older W done todo) :
    (step rights (.poll max) W).1 = .ok () ∧ ∃ todo' passed, todo = todo' ++ passed ∧
      (todo ≠ [] → passed ≠ []) ∧
      Replayed ns branch older (step rights (.poll max) W).2 (passed ++ done) todo' := by
  obtain ⟨todo', passed, batch, rfl, hpoll, hsel, hcommit, hreports, hprogress⟩ :=
    watchPoll_eq_ok hfull h.selects h.log h.readable h.cursor hmax
  rw [step, hpoll]
  have hassoc : todo' ++ passed ++ (done ++ older) = todo' ++ (passed ++ done ++ older) := by
    simp only [append_assoc]
  refine ⟨rfl, todo', passed, rfl, hprogress, hassoc ▸ h.log, hassoc ▸ h.readable, hsel, ?_,
    reports_append h.reports hreports⟩
  rw [hcommit, append_assoc]

omit hfull in
theorem replayed_advance {loom : Loom hash} (hadv : Allowed ns branch W (.advance loom))
    (h : Replayed ns branch older W done todo) :
    ∃ fresh, Replayed ns branch older { W with loom := loom } done (fresh ++ todo) := by
  obtain ⟨hle, fresh, log, hlog, hlog', hfresh⟩ := hadv
  obtain rfl := Except.ok.inj (h.log.symm.trans hlog)
  have hislog := (logUnchecked_eq_ok hlog).1
  refine ⟨fresh, by rw [append_assoc]; exact hlog', fun d hd => ?_, h.selects, h.cursor,
    h.reports.mono hle hislog.of_append fun d hd => h.readable d (mem_append_right _ hd)⟩
  rw [append_assoc] at hd
  rcases mem_append.mp hd with hd | hd
  · exact hfresh d hd
  · exact h.readable.mono hle d hd

theorem replayed_run {inputs : List (Input hash)}
    (hin : Along (step rights) (Allowed ns branch) inputs W)
    (h : Replayed ns branch older W done todo) :
    Along (step rights) (fun W i => (step rights i W).1 = .ok ()) inputs W ∧
      ∃ done todo, Replayed ns branch older (run (step rights) inputs W) done todo := by
  induction inputs generalizing W done todo with
  | nil => exact ⟨trivial, done, todo, h⟩
  | cons i inputs ih =>
    obtain ⟨hi, hin⟩ := hin
    cases i with
    | poll max =>
      obtain ⟨hok, todo', passed, _, _, h'⟩ := replayed_poll hfull hi h
      exact (ih hin h').imp_left (⟨hok, ·⟩)
    | advance loom =>
      obtain ⟨fresh, h'⟩ := replayed_advance hi h
      exact (ih hin h').imp_left (⟨rfl, ·⟩)

/-- As many polls as there are commits left catch up with the branch. -/
theorem replayed_polls {maxes : List ℕ} (hpos : ∀ m ∈ maxes, 0 < m)
    (hlen : todo.length ≤ maxes.length) (h : Replayed ns branch older W done todo) :
    Replayed ns branch older (run (step rights) (maxes.map .poll) W) (todo ++ done) [] := by
  induction maxes generalizing W done todo with
  | nil =>
    obtain rfl := eq_nil_of_length_eq_zero (Nat.le_zero.mp hlen)
    exact h
  | cons max maxes ih =>
    obtain ⟨hmax, hpos⟩ := forall_mem_cons.mp hpos
    obtain ⟨_, todo', passed, rfl, hprogress, h'⟩ := replayed_poll hfull hmax h
    rw [append_assoc]
    refine ih hpos ?_ h'
    cases passed with
    | nil =>
      have hnil : todo' = [] := by simpa using hprogress
      simp [hnil]
    | cons d passed =>
      simp only [length_append, length_cons] at hlen
      omega

/-- **Polls replay the branch**: none fails, the events are the commits after the cursor that change
files, each once and the oldest first, and after enough polls the tip is reached. -/
theorem watch_replays {L : Loom hash} {cursor : WatchCursor D} (hsel : Selects ns branch cursor)
    {newer older : List D} (hlog : logUnchecked L ns branch = .ok (newer ++ older))
    (hread : Readable L.heap.store (newer ++ older)) (hcursor : cursor.commit = older.head?)
    {inputs : List (Input hash)}
    (hin : Along (step rights) (Allowed ns branch) inputs ⟨L, cursor, []⟩) :
    Along (step rights) (fun W i => (step rights i W).1 = .ok ()) inputs ⟨L, cursor, []⟩ ∧
      ∃ done todo, Replayed ns branch older (run (step rights) inputs ⟨L, cursor, []⟩) done todo ∧
        (todo ++ (done ++ older)).Nodup ∧
        ∀ maxes : List ℕ, (∀ m ∈ maxes, 0 < m) → todo.length ≤ maxes.length →
          Replayed ns branch older (run (step rights) (inputs ++ maxes.map .poll) ⟨L, cursor, []⟩)
            (todo ++ done) [] := by
  have hstart : Replayed ns branch older ⟨L, cursor, []⟩ [] newer :=
    ⟨hlog, hread, hsel, hcursor, reports_nil _ _⟩
  obtain ⟨hok, done, todo, h⟩ := replayed_run hfull hin hstart
  refine ⟨hok, done, todo, h, (logUnchecked_eq_ok h.log).1.nodup, fun maxes hpos hlen => ?_⟩
  rw [run_append]
  exact replayed_polls hfull hpos hlen h

end Run

/-! ## A watched branch -/

namespace Sample

/-- A branch with two commits, and one that is two commits ahead; one of those only adds a
directory. -/
def history : Update (ContentStore freeHash) (List (String × FreeDigest)) := do
  let base ← Vcs.Sample.storeCommit [("a", Vcs.Sample.file 1)] [] []
  let next ← Vcs.Sample.storeCommit [("a", Vcs.Sample.file 2)] [] [base]
  let empty ← Vcs.Sample.storeCommit [("a", Vcs.Sample.file 2)] ["d"] [next]
  let tip ← Vcs.Sample.storeCommit [("a", Vcs.Sample.file 3)] ["d"] [empty]
  return [("main", next), ("later", tip)]

def loom : Loom freeHash := Vcs.Sample.loom history

def logOf (L : Loom freeHash) (branch : String) : List FreeDigest :=
  (logUnchecked L Vcs.Sample.ns branch.toList).toOption.getD []

/-- The branch has caught up with the other. -/
def advanced : Loom freeHash :=
  { loom with
    registry := (loom.registry.updateBranch Vcs.Sample.ns "main".toList (logOf loom "main").head?
      ((logOf loom "later").headD [])).toOption.getD loom.registry }

def rights : Rights := ⟨fun _ _ => .ok (), fun _ _ => .ok (), fun _ _ => .ok ()⟩

def cursor : WatchCursor FreeDigest :=
  ⟨Vcs.Sample.ns, "main".toList, (logOf loom "main").getLast?, 0, some .files, none, []⟩

theorem loom_step_poll (rights : Rights) (max : ℕ) (W : State freeHash) :
    (step rights (.poll max) W).2.loom = W.loom := by
  simp only [step]
  split <;> rfl

theorem readable_of_isSome {s : ContentStore freeHash} {log : List FreeDigest}
    (h : ∀ d ∈ log, (filesAt s (some d)).toOption.isSome = true) : Readable s log := by
  intro d hd
  have hsome := h d hd
  cases hfiles : filesAt s (some d) with
  | ok files => exact ⟨files, rfl⟩
  | error e =>
    rw [hfiles] at hsome
    cases hsome

/-- The branch advances between two polls, and they report the commits that change files. -/
theorem watch_replays_advanced : (∃ done todo, Replayed Vcs.Sample.ns "main".toList
      ((logOf loom "main").drop 1) (run (step rights) [.poll 1, .advance advanced, .poll 2]
        ⟨loom, cursor, []⟩) done todo) ∧
    (run (step rights) [.poll 1, .advance advanced, .poll 2] ⟨loom, cursor, []⟩).events.length = 2 := by
  have hlog : logUnchecked loom Vcs.Sample.ns "main".toList =
      .ok ((logOf loom "main").take 1 ++ (logOf loom "main").drop 1) := by decide +kernel
  have hread : Readable loom.heap.store ((logOf loom "main").take 1 ++ (logOf loom "main").drop 1) :=
    readable_of_isSome (by decide +kernel)
  have hfull : rights.Full := ⟨fun _ _ => rfl, fun _ _ => rfl⟩
  have hsel : Selects Vcs.Sample.ns "main".toList cursor := ⟨rfl, rfl, rfl, rfl, rfl⟩
  have hcursor : cursor.commit = ((logOf loom "main").drop 1).head? := by decide +kernel
  have hadvance : Allowed Vcs.Sample.ns "main".toList (step rights (.poll 1) ⟨loom, cursor, []⟩).2
      (.advance advanced) := by
    have hloom := loom_step_poll rights 1 (⟨loom, cursor, []⟩ : State freeHash)
    refine ⟨?_, (logOf advanced "main").take 2, logOf loom "main", ?_, by decide +kernel,
      readable_of_isSome (by decide +kernel)⟩
    · rw [hloom, advanced]
    · rw [hloom]
      decide +kernel
  have hin : Along (step rights) (Allowed Vcs.Sample.ns "main".toList)
      [.poll 1, .advance advanced, .poll 2] ⟨loom, cursor, []⟩ :=
    ⟨Nat.one_pos, hadvance, Nat.two_pos, trivial⟩
  obtain ⟨_, done, todo, h, _⟩ := watch_replays hfull hsel hlog hread hcursor hin
  exact ⟨⟨done, todo, h⟩, by decide +kernel⟩

end Sample

end UldrenLoom.Watch
