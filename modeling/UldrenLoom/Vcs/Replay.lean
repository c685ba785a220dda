import UldrenLoom.Vcs.MergeAtomic

/-!
# Replaying history

Cherry-pick, revert and rebase apply patches to a tree, one after the other, and commit each result.

* **`commitTree_spec`**: when the tree of a step can be stored.
* **`rebase_empty_iff`**: a rebase has nothing to do exactly if the tip is the target.
* **`revert_tip_iff`**: reverting the tip restores the tree of its parent exactly if the directories
  of both commits imply no others than those of the parent; it keeps the directories of both.
-/

namespace UldrenLoom.Vcs

open ByteString Fallible Effect

variable {D : Type} [LinearOrder D] [ToString D] {hash : Stored D → D}

/-- The outcome of a replay. -/
inductive ReplayOutcome (D : Type) where
  | replayed (tip : D)
  | clean
  | conflicts (paths : List Path)
  | empty
deriving Repr, DecidableEq

/-- One step: the change from `base` to `theirs`, with the commit that records it. -/
structure ReplayPatch (D : Type) where
  base : WorkTree D
  theirs : WorkTree D
  theirsDirs : DirSet
  author : String
  message : String
deriving DecidableEq

/-- What a replay comes down to. -/
inductive ReplayPlan (D : Type) where
  | empty
  | fastForward (head : Path) (tip onto : D)
  | steps (start : Option D) (patches : List (ReplayPatch D))
deriving DecidableEq

/-! ## Patches -/

section Patches

variable (s : ContentStore hash)

def startTree : Option D → Result (WorkTree D × DirSet)
  | some d => flattenCommit s d
  | none => .ok (SortedMap.empty, SortedSet.empty)

/-- The change from the first parent of a commit to the commit. -/
def pickPatch (d : D) : Result (ReplayPatch D) := do
  let commit ← getCommit s d
  let theirs ← flattenCommit s d
  let base ← startTree s commit.parents.head?
  .ok ⟨base.1, theirs.1, theirs.2, commit.author, commit.message⟩

def subject (message : String) : String :=
  let line := message.toList.takeWhile (· ≠ '\n')
  String.ofList (if line.length < message.toList.length ∧ line.getLast? = some '\r' then line.dropLast
    else line)

def revertMessage (message : String) : String :=
  "Revert " ++ Path.quote (subject message).toList

/-- The change from a commit back to its first parent. -/
def revertPatch (author : String) (d : D) : Result (ReplayPatch D) := do
  let commit ← getCommit s d
  let base ← flattenCommit s d
  let theirs ← startTree s commit.parents.head?
  .ok ⟨base.1, theirs.1, theirs.2, author, revertMessage commit.message⟩

/-- The first parents from a commit on, as far as `onto` does not contain them, newest first. Of a
history without cycles there are at most as many as there are objects. -/
def commitsSince (onto : D) : (fuel : ℕ) → Option D → Result (List D)
  | _, none => .ok []
  | 0, some _ => .error (.corrupt "first parents descend from each other")
  | fuel + 1, some c => do
    if ← isAncestor s c onto then .ok []
    else
      let commit ← getCommit s c
      let rest ← commitsSince onto fuel commit.parents.head?
      .ok (c :: rest)

end Patches

/-! ## Steps -/

section Steps

variable (env : Env hash) (ns : WorkspaceId) (timestampMs : UInt64)

def commitTree (files : WorkTree D) (dirs : DirSet) (parent : Option D) (author message : String) :
    Update (Heap hash) D := do
  let root ← Heap.onStore (buildSubtree env.isBoundary files dirs [])
  Heap.onStore (putObject (.commit ⟨root, parent.toList, author, timestampMs, message, []⟩))

/-- Apply patches in turn, up to the first that conflicts. -/
def replaySteps (dryRun : Bool) : (patches : List (ReplayPatch D)) → (files : WorkTree D) →
    (dirs : DirSet) → (tip : Option D) → Update (Heap hash) (List Path ⊕ Option D)
  | [], _, _, tip => pure (.inr tip)
  | p :: ps, files, dirs, tip => do
    let (merged, unresolved) ← resolveThreeWay env ns p.base files p.theirs false
    if unresolved ≠ [] then return .inl unresolved
    else if dryRun then replaySteps dryRun ps merged (dirs.union p.theirsDirs) tip
    else
      let new ← commitTree env timestampMs merged (dirs.union p.theirsDirs) tip p.author p.message
      replaySteps dryRun ps merged (dirs.union p.theirsDirs) (some new)

end Steps

namespace Loom

variable (env : Env hash) (ns : WorkspaceId)

/-- Move the current branch to the last commit of a replay; a dry run stops before. -/
def finishReplay (head : Path) (origTip : Option D) (dryRun : Bool) :
    List Path ⊕ Option D → Update (Loom hash) (ReplayOutcome D)
  | .inl paths => return .conflicts paths
  | .inr tip =>
    if dryRun then return .clean
    else
      match tip with
      | none => throw (.corrupt "a non-empty real replay produces a tip")
      | some finalTip => do
        advanceBranch env ns head origTip finalTip
        return .replayed finalTip

/-- Replay patches onto a commit and move the current branch to the result. -/
def replayOnto (start : Option D) (patches : List (ReplayPatch D)) (timestampMs : UInt64)
    (dryRun : Bool) : Update (Loom hash) (ReplayOutcome D) := do
  let L ← get
  if ¬ dryRun ∧ (L.mergeState.get ns).isSome then
    throw ⟨.conflict, "a merge is in progress; resolve and continue it, or abort it first"⟩
  else if patches.isEmpty then return .empty
  else
    let head ← liftM (L.registry.headBranch ns)
    let origTip ← liftM (L.registry.branchTip ns head)
    let running ← liftM (startTree L.heap.store start)
    let last ← onHeap (replaySteps env ns timestampMs dryRun patches running.1 running.2 start)
    finishReplay env ns head origTip dryRun last

def replay (plan : ReplayPlan D) (timestampMs : UInt64) (dryRun : Bool) :
    Update (Loom hash) (ReplayOutcome D) :=
  match plan with
  | .empty => return .empty
  | .fastForward head tip onto =>
    if dryRun then return .clean
    else do
      advanceBranch env ns head (some tip) onto
      return .replayed onto
  | .steps start patches => replayOnto env ns start patches timestampMs dryRun

def authorizeReplay : Result Unit := do
  env.authorize ns .write
  env.authorize ns .advance

def headTip (L : Loom hash) : Result (Option D) := do
  L.registry.branchTip ns (← L.registry.headBranch ns)

/-- The patches of commits, onto the current tip. -/
def patchPlan (patch : ContentStore hash → D → Result (ReplayPatch D)) (commits : List D)
    (L : Loom hash) : Result (ReplayPlan D) := do
  authorizeReplay env ns
  let tip ← headTip ns L
  let patches ← commits.mapM (patch L.heap.store)
  .ok (.steps tip patches)

/-- What a rebase has to replay: the first parents of the current tip that the target lacks. -/
def rebasePlan (onto : Path) (L : Loom hash) : Result (ReplayPlan D) := do
  let s := L.heap.store
  authorizeReplay env ns
  let onto ← resolveRev env L ns onto
  let head ← L.registry.headBranch ns
  match ← L.registry.branchTip ns head with
  | none => .error (.notFound "current branch has no commits")
  | some tip =>
    if tip = onto then .ok .empty
    else if ← isAncestor s tip onto then .ok (.fastForward head tip onto)
    else
      let toReplay ← commitsSince s onto s.size (some tip)
      if toReplay.isEmpty then .ok .empty
      else
        env.authorize ns .admin
        let patches ← toReplay.reverse.mapM (pickPatch s)
        .ok (.steps (some onto) patches)

def cherryPick (commits : List D) (timestampMs : UInt64) (dryRun : Bool) :
    Update (Loom hash) (ReplayOutcome D) := do
  let plan ← liftM (patchPlan env ns pickPatch commits (← get))
  replay env ns plan timestampMs dryRun

def revert (commits : List D) (author : String) (timestampMs : UInt64) (dryRun : Bool) :
    Update (Loom hash) (ReplayOutcome D) := do
  let plan ← liftM (patchPlan env ns (revertPatch · author) commits (← get))
  replay env ns plan timestampMs dryRun

def rebase (onto : Path) (timestampMs : UInt64) (dryRun : Bool) :
    Update (Loom hash) (ReplayOutcome D) := do
  let plan ← liftM (rebasePlan env ns onto (← get))
  replay env ns plan timestampMs dryRun

end Loom

/-! ## Storing the tree of a step -/

section Commit

variable {env : Env hash} {ns : WorkspaceId} {timestampMs : UInt64}

/-- One heap has the objects of another and more, and the same content. -/
def Heap.Grown (h h' : Heap hash) : Prop := h.store ≤ h'.store ∧ h.content = h'.content

omit [ToString D] in
theorem Heap.Grown.trans {h1 h2 h3 : Heap hash} (h : h1.Grown h2) (h' : h2.Grown h3) : h1.Grown h3 :=
  ⟨h.1.trans h'.1, h.2.trans h'.2⟩

variable (env timestampMs) in
/-- **How storing the tree of a step ends**: with a commit of the tree, exactly if it can be stored. -/
theorem commitTree_spec (hinj : Function.Injective hash) (files : WorkTree D) (dirs : DirSet)
    (parent : Option D) (author message : String) (h : Heap hash) :
    ∃ h', h.Grown h' ∧ ((Buildable env.isBoundary files dirs ∧ ∃ d c,
          exec (commitTree env timestampMs files dirs parent author message) h = (.ok d, h') ∧
          getCommit h'.store d = .ok c ∧ c.parents = parent.toList ∧
          ∃ n, Represents env.isBoundary files dirs h'.store n [] c.tree) ∨
      ¬ Buildable env.isBoundary files dirs ∧ ∃ e,
        exec (commitTree env timestampMs files dirs parent author message) h = (.error e, h')) := by
  obtain ⟨s', hle, ⟨hb, root, hex, hrep⟩ | ⟨hb, e, hex⟩⟩ := buildSubtree_spec
    env.isBoundary files dirs hinj h.store
  · have hzoom : exec (Heap.onStore (buildSubtree env.isBoundary files dirs [])) h =
        (.ok root, { h with store := s' }) := by rw [Heap.onStore, exec_zoom, hex]
    set c : Commit D := ⟨root, parent.toList, author, timestampMs, message, []⟩
    refine ⟨{ h with store := s'.put (.object (.commit c)) },
      ⟨hle.trans (ContentStore.le_put s' _), rfl⟩, .inl ⟨hb, hash (.object (.commit c)), c, ?_, ?_,
        rfl, _, hrep.mono (ContentStore.le_put s' _)⟩⟩
    · rw [commitTree, exec_bind_of_ok hzoom]
      rfl
    · exact getCommit_eq_ok.mpr (getObject_put hinj s' (Object.decode_commit c))
  · have hzoom : exec (Heap.onStore (buildSubtree env.isBoundary files dirs [])) h =
        (.error e, { h with store := s' }) := by rw [Heap.onStore, exec_zoom, hex]
    exact ⟨{ h with store := s' }, ⟨hle, rfl⟩, .inr ⟨hb, e, exec_bind_of_error hzoom _⟩⟩

end Commit

/-! ## Rebasing with nothing to do -/

namespace Loom

variable {env : Env hash} {ns : WorkspaceId} {L : Loom hash}
  {start : Option D} {patches : List (ReplayPatch D)}

theorem exec_replayOnto {timestampMs : UInt64} {dryRun : Bool} {head : Path} {origTip : Option D}
    {running : WorkTree D × DirSet} (hidle : dryRun = false → L.mergeState.get ns = none)
    (hne : patches ≠ []) (hhead : L.registry.headBranch ns = .ok head)
    (htip : L.registry.branchTip ns head = .ok origTip)
    (hrun : startTree L.heap.store start = .ok running) :
    exec (replayOnto env ns start patches timestampMs dryRun) L =
      exec (onHeap (replaySteps env ns timestampMs dryRun patches running.1 running.2 start) >>=
        finishReplay env ns head origTip dryRun) L := by
  have hm : ¬ (¬ dryRun = true ∧ (L.mergeState.get ns).isSome = true) := by
    rintro ⟨hd, hm⟩
    rw [hidle (by simpa using hd)] at hm
    exact absurd hm (by simp)
  rw [replayOnto, exec_get_bind, if_neg hm, if_neg (by simpa using hne), exec_lift_bind, hhead]
  simp only [exec_lift_bind, htip, hrun]

theorem idle_of_replayOnto {timestampMs : UInt64} {o : ReplayOutcome D} {L' : Loom hash}
    (h : exec (replayOnto env ns start patches timestampMs false) L = (.ok o, L')) :
    L.mergeState.get ns = none := by
  by_contra hm
  rw [replayOnto, exec_get_bind, if_pos ⟨by simp, Option.isSome_iff_ne_none.mpr hm⟩] at h
  exact absurd (congrArg Prod.fst h) (by simp)

omit [ToString D] in
theorem patchPlan_eq_ok {patch : ContentStore hash → D → Result (ReplayPatch D)}
    {commits : List D} {plan : ReplayPlan D} (h : patchPlan env ns patch commits L = .ok plan) :
    ∃ tip patches, headTip ns L = .ok tip ∧
      List.Forall₂ (fun c p => patch L.heap.store c = .ok p) commits patches ∧
      plan = .steps tip patches := by
  obtain ⟨⟨⟩, -, h⟩ := of_bind h
  obtain ⟨tip, htip, h⟩ := of_bind h
  obtain ⟨patches, hps, h⟩ := of_bind h
  exact ⟨tip, patches, htip, mapM_eq_ok.mp hps, (Except.ok.inj h).symm⟩

theorem finishReplay_ne_empty {head : Path} {origTip : Option D} {dryRun : Bool}
    {last : List Path ⊕ Option D} :
    (exec (finishReplay env ns head origTip dryRun last) L).1 ≠ .ok .empty := by
  rcases last with paths | tip
  · simp [finishReplay]
  · cases dryRun with
    | true => simp [finishReplay]
    | false =>
      cases tip with
      | none => simp [finishReplay]
      | some d =>
        intro h
        obtain ⟨u, L', -, h'⟩ := exec_bind_eq_ok.mp (Prod.ext h rfl)
        exact absurd (congrArg Prod.fst h') (by simp)

theorem replayOnto_ne_empty (hne : patches ≠ []) (timestampMs : UInt64) (dryRun : Bool) :
    (exec (replayOnto env ns start patches timestampMs dryRun) L).1 ≠ .ok .empty := by
  intro h
  rw [replayOnto, exec_get_bind] at h
  split_ifs at h with hm he
  · exact absurd h (by simp)
  · exact absurd (by simpa using he) hne
  obtain ⟨head, L₁, -, h⟩ := exec_bind_eq_ok.mp (Prod.ext h rfl)
  obtain ⟨origTip, L₂, -, h⟩ := exec_bind_eq_ok.mp h
  obtain ⟨running, L₃, -, h⟩ := exec_bind_eq_ok.mp h
  obtain ⟨last, L₄, -, h⟩ := exec_bind_eq_ok.mp h
  exact finishReplay_ne_empty (congrArg Prod.fst h)

theorem commitsSince_ne_nil {s : ContentStore hash} {onto tip : D} {fuel : ℕ} {cs : List D}
    (h : commitsSince s onto fuel (some tip) = .ok cs) (hnot : isAncestor s tip onto = .ok false) :
    cs ≠ [] := by
  cases fuel with
  | zero => exact absurd h (by simp [commitsSince])
  | succ fuel =>
    rw [commitsSince, hnot, ok_bind, if_neg (by simp)] at h
    obtain ⟨commit, -, h⟩ := of_bind h
    obtain ⟨rest, -, h⟩ := of_bind h
    rw [← Except.ok.inj h]
    simp

/-- **What a rebase comes down to**, from its tip and its target. -/
theorem rebasePlan_eq_ok {onto : Path} {plan : ReplayPlan D}
    (h : rebasePlan env ns onto L = .ok plan) :
    ∃ d head tip, resolveRev env L ns onto = .ok d ∧ L.registry.headBranch ns = .ok head ∧
      L.registry.branchTip ns head = .ok (some tip) ∧
      (tip = d ∧ plan = .empty ∨
      tip ≠ d ∧ isAncestor L.heap.store tip d = .ok true ∧ plan = .fastForward head tip d ∨
      tip ≠ d ∧ isAncestor L.heap.store tip d = .ok false ∧
        ∃ patches, patches ≠ [] ∧ plan = .steps (some d) patches) := by
  obtain ⟨⟨⟩, -, h⟩ := of_bind h
  obtain ⟨d, hd, h⟩ := of_bind h
  obtain ⟨head, hhead, h⟩ := of_bind h
  obtain ⟨_ | tip, htip, h⟩ := of_bind h
  · exact absurd h (by simp)
  refine ⟨d, head, tip, hd, hhead, htip, ?_⟩
  simp only at h
  split_ifs at h with heq
  · exact .inl ⟨heq, (Except.ok.inj h).symm⟩
  obtain ⟨_ | _, hanc, h⟩ := of_bind h
  swap
  · exact .inr (.inl ⟨heq, hanc, (Except.ok.inj h).symm⟩)
  obtain ⟨cs, hcs, h⟩ := of_bind h
  have hne := commitsSince_ne_nil hcs hanc
  rw [if_neg (by simpa using hne)] at h
  obtain ⟨⟨⟩, -, h⟩ := of_bind h
  obtain ⟨patches, hps, h⟩ := of_bind h
  refine .inr (.inr ⟨heq, hanc, patches, ?_, (Except.ok.inj h).symm⟩)
  rintro rfl
  exact hne (List.reverse_eq_nil_iff.mp (List.forall₂_nil_right_iff.mp (mapM_eq_ok.mp hps)))

/-- **A rebase has nothing to do exactly if the tip is the target**, not a commit above it. -/
theorem rebase_empty_iff {onto : Path} {tip d : D} (hauth : authorizeReplay env ns = .ok ())
    (honto : resolveRev env L ns onto = .ok d) (htip : headTip ns L = .ok (some tip))
    (timestampMs : UInt64) :
    ((exec (rebase env ns onto timestampMs false) L).1 = .ok .empty ∧
      Unchanged ns L (exec (rebase env ns onto timestampMs false) L).2) ↔ tip = d := by
  obtain ⟨head, hhead, htip⟩ := of_bind htip
  constructor
  · rintro ⟨h, -⟩
    rw [rebase, exec_get_bind, exec_lift_bind] at h
    cases hplan : rebasePlan env ns onto L with
    | error e => simp [hplan] at h
    | ok plan =>
      rw [hplan] at h
      obtain ⟨d', head', tip', hd', hhead', htip', hcases⟩ := rebasePlan_eq_ok hplan
      cases honto.symm.trans hd'
      cases hhead.symm.trans hhead'
      obtain rfl := Option.some.inj (Except.ok.inj (htip.symm.trans htip'))
      obtain ⟨heq, -⟩ | ⟨-, -, rfl⟩ | ⟨-, -, patches, hne, rfl⟩ := hcases
      · exact heq
      · obtain ⟨u, L', -, h'⟩ := exec_bind_eq_ok.mp (Prod.ext h rfl)
        exact absurd (congrArg Prod.fst h') (by simp)
      · exact absurd h (replayOnto_ne_empty hne timestampMs false)
  · rintro rfl
    have hplan : rebasePlan env ns onto L = .ok .empty := by
      rw [rebasePlan, hauth, ok_bind, honto, ok_bind, hhead, ok_bind, htip, ok_bind]
      exact if_pos rfl
    have hex : exec (rebase env ns onto timestampMs false) L = (.ok .empty, L) := by
      rw [rebase, exec_get_bind, exec_lift_bind, hplan]
      rfl
    rw [hex]
    exact ⟨rfl, Unchanged.of_heap L.heap⟩

/-- Commit `p` is the first parent of commit `d`. -/
def IsFirstParent (s : ContentStore hash) (d p : D) : Prop :=
  (getCommit s d).toOption.bind (·.parents.head?) = some p

instance (s : ContentStore hash) (d p : D) : Decidable (IsFirstParent s d p) :=
  inferInstanceAs (Decidable (_ = _))

def aheadHistory : Update (ContentStore freeHash) (List (String × FreeDigest)) := do
  let base ← Sample.storeCommit [] [] []
  let ahead ← Sample.storeCommit [("a", Sample.file 1)] [] [base]
  return [("main", ahead), ("dev", base)]

theorem rebase_main_empty :
    (exec (rebase Sample.plainEnv Sample.ns "main".toList 2 false) (Sample.loom aheadHistory)).1 =
      .ok .empty :=
  have htip : headTip Sample.ns (Sample.loom aheadHistory) =
      .ok (some (((Sample.loom aheadHistory).registry.tip Sample.ns "main".toList).getD [])) := by
    decide +kernel
  ((rebase_empty_iff rfl (by decide +kernel) htip 2).mpr rfl).1

/-- **A rebase onto a commit below the tip rewrites the branch**, and again when repeated. -/
theorem rebase_rewrites : ∃ (L : Loom freeHash) (tip d : FreeDigest),
    headTip Sample.ns L = .ok (some tip) ∧
    resolveRev Sample.plainEnv L Sample.ns "dev".toList = .ok d ∧
    Relation.ReflTransGen (IsFirstParent L.heap.store) tip d ∧
    let first := exec (rebase Sample.plainEnv Sample.ns "dev".toList 2 false) L
    let second := exec (rebase Sample.plainEnv Sample.ns "dev".toList 3 false) first.2
    (∃ tip₁, first.1 = .ok (.replayed tip₁) ∧ headTip Sample.ns first.2 = .ok (some tip₁) ∧
      tip₁ ≠ tip ∧ ∃ tip₂, second.1 = .ok (.replayed tip₂) ∧
        headTip Sample.ns second.2 = .ok (some tip₂) ∧ tip₂ ≠ tip₁) := by
  have h : let L := Sample.loom aheadHistory
    let first := exec (rebase Sample.plainEnv Sample.ns "dev".toList 2 false) L
    let second := exec (rebase Sample.plainEnv Sample.ns "dev".toList 3 false) first.2
    let tipOf (L : Loom freeHash) := (L.registry.tip Sample.ns "main".toList).getD []
    headTip Sample.ns L = .ok (some (tipOf L)) ∧
    resolveRev Sample.plainEnv L Sample.ns "dev".toList =
      .ok ((L.registry.tip Sample.ns "dev".toList).getD []) ∧
    IsFirstParent L.heap.store (tipOf L) ((L.registry.tip Sample.ns "dev".toList).getD []) ∧
    first.1 = .ok (.replayed (tipOf first.2)) ∧
    headTip Sample.ns first.2 = .ok (some (tipOf first.2)) ∧ tipOf first.2 ≠ tipOf L ∧
    second.1 = .ok (.replayed (tipOf second.2)) ∧
    headTip Sample.ns second.2 = .ok (some (tipOf second.2)) ∧
    tipOf second.2 ≠ tipOf first.2 := by decide +kernel
  obtain ⟨h1, h2, h3, h4, h5, h6, h7, h8, h9⟩ := h
  exact ⟨_, _, _, h1, h2, .single h3, _, h4, h5, h6, _, h7, h8, h9⟩

end Loom

/-! ## Reverting the tip -/

omit [ToString D] in
theorem resolveThreeWay_self (env : Env hash) (ns : WorkspaceId) (ours theirs : WorkTree D)
    (cellLevel : Bool) (h : Heap hash) :
    exec (resolveThreeWay env ns ours ours theirs cellLevel) h = (.ok (theirs, []), h) := by
  have hconf : (threeWayMergeFiles ours ours theirs).2 = [] := by
    rw [conflicts_threeWayMergeFiles]
    simp [Conflicting]
  have hmerged : (threeWayMergeFiles ours ours theirs).1 = theirs :=
    SortedMap.ext_get fun p => by rw [get_threeWayMergeFiles, if_pos rfl]
  rw [resolveThreeWay, hconf, hmerged]
  rfl

namespace Loom

variable {env : Env hash} {ns : WorkspaceId} {L : Loom hash}

section Tip

variable (hinj : Function.Injective hash) {tip d : D} {commit : Commit D} {files : WorkTree D}
  {dirs : DirSet} {tree : WorkTree D × DirSet} {author : String} {timestampMs : UInt64}
  {L' : Loom hash} (htip : headTip ns L = .ok (some tip))
  (hcommit : getCommit L.heap.store tip = .ok commit)
  (htree : flattenCommit L.heap.store tip = .ok tree)
  (hparent : startTree L.heap.store commit.parents.head? = .ok (files, dirs))
  (hrev : exec (revert env ns [tip] author timestampMs false) L = (.ok (.replayed d), L'))

include hinj htip hcommit htree hparent hrev

/-- **What a revert of the tip restores**: the files of the parent, and the directories that these
and both commits imply. -/
theorem revert_tip_tree : ∃ dirs', flattenCommit L'.heap.store d = .ok (files, dirs') ∧
      ∀ q, q ∈ dirs' ↔ Implied files (tree.2.union dirs) q := by
  rw [revert, exec_get_bind] at hrev
  obtain ⟨plan, hplan, hrev⟩ := exec_lift_bind_eq_ok.mp hrev
  obtain ⟨tip', patches, htip', hpatches, rfl⟩ := patchPlan_eq_ok hplan
  cases htip.symm.trans htip'
  obtain ⟨patch, rest, hpatch, hrest, rfl⟩ := List.forall₂_cons_left_iff.mp hpatches
  obtain rfl := List.forall₂_nil_left_iff.mp hrest
  -- the patch leads from the tree of the tip to that of its parent
  rw [revertPatch, hcommit, ok_bind, htree, ok_bind, hparent, ok_bind] at hpatch
  cases hpatch
  obtain ⟨head, hhead, hbranch⟩ := of_bind htip
  change exec (replayOnto env ns (some tip) _ timestampMs false) L = _ at hrev
  rw [exec_replayOnto (fun _ => idle_of_replayOnto hrev) (by simp) hhead hbranch
    (show startTree L.heap.store (some tip) = .ok tree from htree)] at hrev
  obtain ⟨last, L₁, hlast, hrev⟩ := exec_bind_eq_ok.mp hrev
  rw [exec_onHeap, replaySteps, exec_bind_of_ok (resolveThreeWay_self ..)] at hlast
  simp only [ne_eq, not_true_eq_false, if_false, Bool.false_eq_true] at hlast
  obtain ⟨h', -, ⟨-, d', c, hex, hget, -, n, hrep⟩ | ⟨-, e, hex⟩⟩ := commitTree_spec env timestampMs
    hinj files (tree.2.union dirs) (some tip) author
    (revertMessage commit.message) L.heap
  · rw [exec_bind_of_ok hex] at hlast
    obtain rfl : last = .inr (some d') := (Except.ok.inj (congrArg Prod.fst hlast)).symm
    obtain rfl : { L with heap := h' } = L₁ := congrArg Prod.snd hlast
    obtain ⟨⟨⟩, L₂, hadv, hrev⟩ := exec_bind_eq_ok.mp hrev
    obtain ⟨rfl, rfl⟩ : d' = d ∧ L₂ = L' := by simpa using hrev
    obtain ⟨⟨-, r, hr⟩, hheap⟩ := advanceBranch_ok hadv
    obtain ⟨dirs', hflat, hdirs⟩ :=
      flatten_of_shallow hrep ((flattenCommit_iff_shallow hget hrep).mp ⟨r, hr⟩)
    refine ⟨dirs', ?_, hdirs⟩
    rw [hheap, flattenCommit, hget, ok_bind, hflat]
  · rw [exec_bind_of_error hex] at hlast
    exact absurd (congrArg Prod.fst hlast) (by simp)

/-- **When a revert of the tip restores the tree of the parent**: if no other directories are
implied. -/
theorem revert_tip_iff : flattenCommit L'.heap.store d = .ok (files, dirs) ↔
      ∀ q, Implied files (tree.2.union dirs) q ↔ q ∈ dirs := by
  obtain ⟨dirs', hflat, hdirs⟩ := revert_tip_tree hinj htip hcommit htree hparent hrev
  rw [hflat, Except.ok.injEq, Prod.mk.injEq, eq_self_iff_true, true_and]
  constructor
  · rintro rfl q
    exact (hdirs q).symm
  · exact fun h => SortedSet.ext_mem fun q => (hdirs q).trans (h q)

end Tip

def addingHistory : Update (ContentStore freeHash) (List (String × FreeDigest)) := do
  let base ← Sample.storeCommit [("a", Sample.file 1)] [] []
  let tip ← Sample.storeCommit [("a", Sample.file 1), ("d/b", Sample.file 2)] ["d"] [base]
  return [("main", tip)]

/-- The engine before the revert, its tip, and what the revert does. -/
def addingLoom : Loom freeHash := Sample.loom addingHistory

def addingTip : FreeDigest := (addingLoom.registry.tip Sample.ns "main".toList).getD []

def addingRevert : Result (ReplayOutcome FreeDigest) × Loom freeHash :=
  exec (revert Sample.plainEnv Sample.ns [addingTip] "author" 2 false) addingLoom

def revertedTip : FreeDigest := (addingRevert.2.registry.tip Sample.ns "main".toList).getD []

theorem addingRevert_spec : ∃ commit : Commit FreeDigest,
    headTip Sample.ns addingLoom = .ok (some addingTip) ∧
    getCommit addingLoom.heap.store addingTip = .ok commit ∧
    flattenCommit addingLoom.heap.store addingTip = .ok
      (SortedMap.ofList [("a".toList, Sample.file 1), ("d/b".toList, Sample.file 2)],
        SortedSet.ofList ["d".toList]) ∧
    startTree addingLoom.heap.store commit.parents.head? = .ok
      (SortedMap.ofList [("a".toList, Sample.file 1)], SortedSet.empty) ∧
    exec (revert Sample.plainEnv Sample.ns [addingTip] "author" 2 false) addingLoom =
      (.ok (.replayed revertedTip), addingRevert.2) ∧
    flattenCommit addingRevert.2.heap.store revertedTip = .ok
      (SortedMap.ofList [("a".toList, Sample.file 1)], SortedSet.ofList ["d".toList]) := by
  refine ⟨(getCommit addingLoom.heap.store addingTip).toOption.getD ⟨[], [], "", 0, "", []⟩, ?_⟩
  have hrev : addingRevert.1 = .ok (.replayed revertedTip) := by decide +kernel
  refine ⟨?_, ?_, ?_, ?_, ?_, ?_⟩
  case refine_5 => rw [← addingRevert, ← hrev]
  all_goals decide +kernel

theorem adding_not_implied : ¬ ∀ q, Implied (SortedMap.ofList [("a".toList, Sample.file 1)])
    ((SortedSet.ofList ["d".toList]).union SortedSet.empty) q ↔
      q ∈ (SortedSet.empty : SortedSet Path) := by
  obtain ⟨commit, htip, hcommit, htree, hparent, hrev, hflat⟩ := addingRevert_spec
  intro h
  have hexact := (revert_tip_iff freeHash_injective htip hcommit htree hparent hrev).mpr h
  rw [hflat] at hexact
  exact absurd hexact (by decide +kernel)

/-- **A revert that does not restore the tree of the parent**: the added directory stays. -/
theorem revert_keeps_directory : ∃ (L : Loom freeHash) (tip d : FreeDigest)
    (commit : Commit FreeDigest) (tree : WorkTree FreeDigest × DirSet) (L' : Loom freeHash),
    headTip Sample.ns L = .ok (some tip) ∧ getCommit L.heap.store tip = .ok commit ∧
    startTree L.heap.store commit.parents.head? = .ok tree ∧
    exec (revert Sample.plainEnv Sample.ns [tip] "author" 2 false) L = (.ok (.replayed d), L') ∧
    flattenCommit L'.heap.store d ≠ .ok tree := by
  obtain ⟨commit, htip, hcommit, -, hparent, hrev, hflat⟩ := addingRevert_spec
  refine ⟨addingLoom, addingTip, revertedTip, commit, _, addingRevert.2, htip, hcommit, hparent,
    hrev, ?_⟩
  rw [hflat]
  decide +kernel

end Loom

end UldrenLoom.Vcs
