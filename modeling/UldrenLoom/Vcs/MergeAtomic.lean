import UldrenLoom.Vcs.Merge
import UldrenLoom.Vcs.TreeRoundTrip

/-!
# Failed merges

A merge stages its result before it checks it and moves the branch before it checks the new tip out.

* **`merge_unchanged`**: a failed merge leaves the workspace unchanged if it is safe, and only if it is
  safe or idle.
* **`merge_fails_changed`**: a merge of a file and a directory fails and changes the workspace.
-/

namespace UldrenLoom.Vcs

open ByteString Fallible Effect Loom

variable {D : Type} [LinearOrder D] [ToString D] {hash : Stored D → D}

namespace Loom

/-- A workspace has the same tree, index and merge state, and all branches have the same tips. -/
structure Unchanged (ns : WorkspaceId) (L L' : Loom hash) : Prop where
  work : L'.workOf ns = L.workOf ns
  dirs : L'.dirsOf ns = L.dirsOf ns
  index : L'.indexOf ns = L.indexOf ns
  mergeState : L'.mergeState.get ns = L.mergeState.get ns
  tips : ∀ id branch, L'.registry.tip id branch = L.registry.tip id branch

/-! ## Moving a branch -/

/-- A commit can be checked out. -/
def CanCheckout (env : Env hash) (ns : WorkspaceId) (s : ContentStore hash) (commit : D) : Prop :=
  env.authorize ns .read = .ok () ∧ ∃ r, flattenCommit s commit = .ok r

variable {env : Env hash} {ns : WorkspaceId} {L : Loom hash}

variable (env ns L) in
theorem checkoutCommit_spec (commit : D) : (CanCheckout env ns L.heap.store commit ∧
      ∃ L', exec (checkoutCommit env ns commit) L = (.ok (), L')) ∨
    ¬ CanCheckout env ns L.heap.store commit ∧
      ∃ e, exec (checkoutCommit env ns commit) L = (.error e, L) := by
  rw [exec_checkoutCommit]
  unfold CanCheckout
  rcases env.authorize ns .read with e | ⟨⟩
  · exact .inr ⟨by simp, e, rfl⟩
  · rcases flattenCommit L.heap.store commit with e | ⟨files, dirs⟩
    · exact .inr ⟨by simp, e, rfl⟩
    · exact .inl ⟨⟨rfl, _, rfl⟩, _, rfl⟩

variable {head fromBranch : Path} {new ours theirs : D}

/-- **How a branch moves that may move**: it is checked out, or cannot be checked out. -/
theorem advanceBranch_allowed {old : Option D}
    (hallow : authorizeBranchUpdate env L ns (branchRef head) old new = .ok ())
    (htip : L.registry.branchTip ns head = .ok old) :
    (CanCheckout env ns L.heap.store new ∧
      ∃ L', exec (advanceBranch env ns head old new) L = (.ok (), L')) ∨
    ¬ CanCheckout env ns L.heap.store new ∧
      ∃ e L', exec (advanceBranch env ns head old new) L = (.error e, L') ∧
        L'.registry.tip ns head = some new := by
  obtain ⟨reg, hreg⟩ := Registry.exists_updateBranch new htip
  have hnew : reg.tip ns head = some new := by
    rw [Registry.tip_updateBranch hreg, if_pos ⟨rfl, rfl⟩]
  have hexec : exec (advanceBranch env ns head old new) L =
      exec (checkoutCommit env ns new) { L with registry := reg } := by
    rw [advanceBranch, exec_get_bind, exec_lift_bind, hallow]
    exact exec_bind_of_ok (by rw [exec_updateBranch, hreg]) _
  rw [hexec]
  obtain ⟨hc, L', hL'⟩ | ⟨hc, e, he⟩ :=
    checkoutCommit_spec env ns { L with registry := reg } new
  · exact .inl ⟨hc, L', hL'⟩
  · exact .inr ⟨hc, e, _, he, hnew⟩

variable (env) in
/-- **How a branch moves to a descendant**: it is refused, checked out, or moves and cannot be. -/
theorem advanceBranch_spec {old : D} (htip : L.registry.branchTip ns head = .ok (some old))
    (hanc : isAncestor L.heap.store old new = .ok true) :
    (¬ Unsigned L ns (branchRef head) ∧
      ∃ e, exec (advanceBranch env ns head (some old) new) L = (.error e, L)) ∨
    (Unsigned L ns (branchRef head) ∧ CanCheckout env ns L.heap.store new ∧
      ∃ L', exec (advanceBranch env ns head (some old) new) L = (.ok (), L')) ∨
    Unsigned L ns (branchRef head) ∧ ¬ CanCheckout env ns L.heap.store new ∧
      ∃ e L', exec (advanceBranch env ns head (some old) new) L = (.error e, L') ∧
        L'.registry.tip ns head = some new := by
  have hauth := authorizeBranchUpdate_descendant env ns (branchRef head) hanc
  rcases hres : authorizeBranchUpdate env L ns (branchRef head) (some old) new with e | ⟨⟩
  · refine .inl ⟨fun hu => by simp [hauth.mpr hu] at hres, e, ?_⟩
    rw [advanceBranch, exec_get_bind, exec_lift_bind, hres]
  · exact .inr ((advanceBranch_allowed hres htip).imp (⟨hauth.mp hres, ·⟩) (⟨hauth.mp hres, ·⟩))

theorem advanceBranch_ok {old : Option D} {L' : Loom hash}
    (h : exec (advanceBranch env ns head old new) L = (.ok (), L')) :
    CanCheckout env ns L.heap.store new ∧ L'.heap = L.heap := by
  rw [advanceBranch, exec_get_bind] at h
  obtain ⟨⟨⟩, -, h⟩ := exec_lift_bind_eq_ok.mp h
  obtain ⟨⟨⟩, L₂, h2, h⟩ := exec_bind_eq_ok.mp h
  have hheap : L₂.heap = L.heap := by
    rw [exec_updateBranch] at h2
    cases hreg : L.registry.updateBranch ns head old new with
    | error e => simp [hreg] at h2
    | ok reg =>
      rw [hreg] at h2
      exact (congrArg (fun p => p.2.heap) h2).symm
  obtain ⟨hc, L₃, -⟩ | ⟨-, e, he⟩ := checkoutCommit_spec env ns L₂ new
  · rw [exec_checkoutCommit] at h
    obtain ⟨hread, ⟨files, dirs⟩, hflat⟩ := hc
    rw [hread, hflat] at h
    rw [← hheap]
    exact ⟨⟨hread, _, hflat⟩, (congrArg (fun p => p.2.heap) h).symm⟩
  · exact absurd (congrArg Prod.fst (he.symm.trans h)) (by simp)

/-! ## Storing a tree -/

/-- A tree passes the checks made before it is stored, and can be stored. -/
def Storable (env : Env hash) (files : WorkTree D) (dirs : DirSet) : Prop :=
  namespacePreflight files dirs = [] ∧ Buildable env.isBoundary files dirs

variable {dirs : DirSet}

omit [LinearOrder D] [ToString D] in
theorem validateVcsNamespacePreflight_eq_ok {files : WorkTree D} :
    validateVcsNamespacePreflight files dirs = .ok () ↔ namespacePreflight files dirs = [] := by
  unfold validateVcsNamespacePreflight
  cases namespacePreflight files dirs <;> simp

variable {r : Result Unit} {g : Staging hash}

/-- **How storing the tree of a workspace ends**, after its documents were written out. -/
theorem snapshotTreeWith_spec (hinj : Function.Injective hash) (stored : Result Unit)
    (hmat : exec (env.materializeDocuments ns) (L.staging ns) = (r, g)) :
    ∃ s', g.heap.store ≤ s' ∧
      ((r = .ok () ∧ Storable env g.work g.dirs ∧ stored = .ok () ∧
        ∃ root, exec (snapshotTreeWith env ns stored) L =
          (.ok root, L.setStaging ns { g with heap := { g.heap with store := s' } }) ∧
          ∃ n, Represents env.isBoundary g.work g.dirs s' n [] root) ∨
      ¬ (r = .ok () ∧ Storable env g.work g.dirs ∧ stored = .ok ()) ∧
        ∃ e, exec (snapshotTreeWith env ns stored) L =
          (.error e, L.setStaging ns { g with heap := { g.heap with store := s' } })) := by
  have hzoom : exec (zoom (staging · ns) (setStaging ns) (env.materializeDocuments ns)) L =
      (r, L.setStaging ns g) := by rw [exec_zoom, hmat]
  rcases r with e | ⟨⟩
  · refine ⟨g.heap.store, le_rfl, .inr ⟨by simp, e, ?_⟩⟩
    rw [snapshotTreeWith, exec_bind_of_error hzoom]
  rw [snapshotTreeWith, exec_bind_of_ok hzoom, exec_get_bind, exec_lift_bind, workOf_setStaging,
    dirsOf_setStaging]
  rcases hpre : validateVcsNamespacePreflight g.work g.dirs with e | ⟨⟩
  · refine ⟨g.heap.store, le_rfl, .inr ⟨fun h => ?_, e, rfl⟩⟩
    rw [validateVcsNamespacePreflight_eq_ok.mpr h.2.1.1] at hpre
    exact absurd hpre (by simp)
  have hclean := validateVcsNamespacePreflight_eq_ok.mp hpre
  rcases stored with e | ⟨⟩
  · exact ⟨g.heap.store, le_rfl, .inr ⟨by simp, e, rfl⟩⟩
  have hbuild : ∀ {res s'}, exec (buildSubtree env.isBoundary g.work g.dirs []) g.heap.store =
      (res, s') → exec (onStore (buildSubtree env.isBoundary g.work g.dirs []))
        (L.setStaging ns g) = (res, L.setStaging ns { g with heap := { g.heap with store := s' } }) := by
    intro res s' hex
    have hstore : (L.setStaging ns g).heap = g.heap := rfl
    rw [exec_onStore, hstore, hex]
    rfl
  obtain ⟨s', hle, ⟨hb, root, hex, hrep⟩ | ⟨hb, e, hex⟩⟩ := buildSubtree_spec
    env.isBoundary g.work g.dirs hinj g.heap.store
  · exact ⟨s', hle, .inl ⟨rfl, ⟨hclean, hb⟩, rfl, root, hbuild hex, _, hrep⟩⟩
  · exact ⟨s', hle, .inr ⟨fun h => hb h.2.1.2, e, hbuild hex⟩⟩

/-! ## Committing the merged tree -/

theorem flattenCommit_iff_shallow {B : Bytes → ℕ → Bool} {files : WorkTree D}
    {s : ContentStore hash} {n : ℕ} {d : D} {c : Commit D} (hc : getCommit s d = .ok c)
    (hrep : Represents B files dirs s n [] c.tree) :
    (∃ r, flattenCommit s d = .ok r) ↔ Shallow B files dirs := by
  rw [flattenCommit, hc, ok_bind]
  constructor
  · rintro ⟨r, hr⟩
    exact shallow_of_flatten hrep hr
  · intro h
    obtain ⟨dirs', hflat, -⟩ := flatten_of_shallow hrep h
    exact ⟨_, hflat⟩

/-- What is staged is committed: its documents are written out, it can be stored, the store takes it
and the branch asks for no signature or review. -/
def Accepted (env : Env hash) (L : Loom hash) (ns : WorkspaceId) (head : Path)
    (stored r : Result Unit) (g : Staging hash) : Prop :=
  (r = .ok () ∧ Storable env g.work g.dirs ∧ stored = .ok ()) ∧ Unsigned L ns (branchRef head)

variable {stored : Result Unit}

/-- **How committing a staged merge ends.** -/
theorem commitMerge_spec (hinj : Function.Injective hash) (fromBranch : Path) (author : String)
    (timestampMs : UInt64) (hmat : exec (env.materializeDocuments ns) (L.staging ns) = (r, g))
    (htip : L.registry.branchTip ns head = .ok (some ours)) {A A' : SortedSet D}
    (hours : ancestors L.heap.store ours = .ok A) (hnot : theirs ∉ A)
    (htheirs : ancestors L.heap.store theirs = .ok A') :
    let x := commitMerge env ns fromBranch stored head ours theirs author timestampMs
    (Accepted env L ns head stored r g ∧ env.authorize ns .read = .ok () ∧
      Shallow env.isBoundary g.work g.dirs ∧ ∃ o L', exec x L = (.ok o, L')) ∨
    (Accepted env L ns head stored r g ∧
      ¬ (env.authorize ns .read = .ok () ∧ Shallow env.isBoundary g.work g.dirs) ∧
      ∃ e L', exec x L = (.error e, L') ∧ L'.registry.tip ns head ≠ some ours) ∨
    ¬ Accepted env L ns head stored r g ∧ ∃ e L', exec x L = (.error e, L') ∧ L'.workOf ns = g.work ∧
      L'.dirsOf ns = g.dirs ∧ L'.index = L.index ∧ L'.mergeState = L.mergeState ∧
      L'.registry = L.registry := by
  intro x
  obtain ⟨s', hle, ⟨hr, hst, hput, root, hex, n, hrep⟩ | ⟨hst, e, hex⟩⟩ :=
    snapshotTreeWith_spec hinj stored hmat
  swap
  · refine .inr (.inr ⟨fun h => hst h.1, e, _, exec_bind_of_error hex _, ?_⟩)
    simp [setStaging, workOf, dirsOf]
  -- the commit, in a store that has all of the old one
  set c : Commit D := ⟨root, [ours, theirs], author, timestampMs,
    "merge " ++ String.ofList fromBranch, []⟩ with hc
  set s := s'.put (.object (.commit c)) with hs
  set d := hash (.object (.commit c)) with hd
  have hle0 : L.heap.store ≤ g.heap.store := by
    have h := env.materializeDocuments_le ns (L.staging ns)
    rw [hmat] at h
    exact h
  have hle' : L.heap.store ≤ s := (hle0.trans hle).trans (ContentStore.le_put s' _)
  have hget : getCommit s d = .ok c :=
    getCommit_eq_ok.mpr (getObject_put hinj s' (Object.decode_commit c))
  have hanc : isAncestor s ours d = .ok true := by
    obtain ⟨B, hB, -, hpar⟩ := ancestors_of_parents hget (List.forall_mem_cons.mpr
      ⟨⟨A, ancestors_mono hle' hours⟩, List.forall_mem_singleton.mpr
        ⟨A', ancestors_mono hle' htheirs⟩⟩)
    exact isAncestor_eq_ok.mpr ⟨B, hB, by simpa using hpar ours (by simp [hc])⟩
  have hne : d ≠ ours := by
    intro hd'
    obtain ⟨c', hc'⟩ := (ancestors_spec hours).2 ours .refl
    have hcc' : c = c' := by
      have h := getCommit_mono hle' hc'
      rw [← hd', hget] at h
      exact Except.ok.inj h
    exact hnot (((ancestors_spec hours).1 theirs).mpr (.single ⟨c', hc', by simp [← hcc', hc]⟩))
  set L₁ := L.setStaging ns { g with heap := { g.heap with store := s } } with hL₁
  have hx : exec x L =
      exec (advanceBranch env ns head (some ours) d >>= fun _ => pure (.merged d)) L₁ := by
    change exec (snapshotTreeWith env ns stored >>= _) L = _
    rw [exec_bind_of_ok hex]
    exact exec_bind_of_ok rfl _
  have hcan : CanCheckout env ns s d ↔
      env.authorize ns .read = .ok () ∧ Shallow env.isBoundary g.work g.dirs := by
    rw [CanCheckout, flattenCommit_iff_shallow hget (hrep.mono (ContentStore.le_put s' _))]
  rw [hx]
  obtain ⟨hu, e, he⟩ | ⟨hu, hcc, L', hL'⟩ | ⟨hu, hcc, e, L', hL', htip'⟩ :=
    advanceBranch_spec env (L := L₁) htip hanc
  · refine .inr (.inr ⟨fun h => hu h.2, e, _, exec_bind_of_error he _, ?_⟩)
    simp [hL₁, setStaging, workOf, dirsOf]
  · obtain ⟨hread, hsh⟩ := hcan.mp hcc
    exact .inl ⟨⟨⟨hr, hst, hput⟩, hu⟩, hread, hsh, _, L', by rw [exec_bind_of_ok hL']; rfl⟩
  · refine .inr (.inl ⟨⟨⟨hr, hst, hput⟩, hu⟩, fun h => hcc (hcan.mpr h), e, L',
      exec_bind_of_error hL' _, ?_⟩)
    rw [htip']
    exact fun h => hne (Option.some.inj h)

/-! ## Merging a branch -/

omit [ToString D] in
theorem branchTip_of_mergeTips {tips : Path × D × D}
    (h : mergeTips env ns fromBranch L = .ok tips) :
    L.registry.branchTip ns tips.1 = .ok (some tips.2.1) := by
  unfold mergeTips at h
  split_ifs at h with hm
  obtain ⟨head, -, h⟩ := of_bind h
  obtain ⟨⟨⟩, -, h⟩ := of_bind h
  obtain ⟨⟨⟩, -, h⟩ := of_bind h
  obtain ⟨_ | ours, htip, h⟩ := of_bind h
  · exact absurd h (by simp)
  obtain ⟨_ | theirs, -, h⟩ := of_bind h
  · exact absurd h (by simp)
  cases h
  exact htip

theorem threeWayPlan_eq_ok {s : ContentStore hash} {plan : MergePlan D}
    (h : threeWayPlan s head ours theirs = .ok plan) :
    ∃ base ourFiles theirFiles dirs,
      plan = .threeWay head ours theirs base ourFiles theirFiles dirs := by
  obtain ⟨bases, -, h⟩ := of_bind h
  obtain ⟨base, -, h⟩ := of_bind h
  obtain ⟨our, -, h⟩ := of_bind h
  obtain ⟨their, -, h⟩ := of_bind h
  exact ⟨_, _, _, _, (Except.ok.inj h).symm⟩

/-- **What a plan says about the tips.** -/
theorem planMerge_eq_ok {plan : MergePlan D} (h : planMerge env ns fromBranch L = .ok plan) :
    plan = .upToDate ∨ ∃ head ours theirs, L.registry.branchTip ns head = .ok (some ours) ∧
      ∃ A A', ancestors L.heap.store ours = .ok A ∧ theirs ∉ A ∧
        ancestors L.heap.store theirs = .ok A' ∧
        (ours ∈ A' ∧ plan = .fastForward head ours theirs ∨
        ∃ base ourFiles theirFiles dirs,
          plan = .threeWay head ours theirs base ourFiles theirFiles dirs) := by
  obtain ⟨⟨head, ours, theirs⟩, htips, h⟩ := of_bind h
  have htip := branchTip_of_mergeTips htips
  obtain ⟨_ | _, hcont, h⟩ := of_bind h
  swap
  · exact .inl (Except.ok.inj h).symm
  unfold contained at hcont
  split_ifs at hcont with heq
  · exact absurd hcont (by simp)
  obtain ⟨A, hA, hnot⟩ := isAncestor_eq_ok.mp hcont
  obtain ⟨b, hanc, h⟩ := of_bind h
  obtain ⟨A', hA', hb⟩ := isAncestor_eq_ok.mp hanc
  refine .inr ⟨head, ours, theirs, htip, A, A', hA, by simpa using hnot, hA', ?_⟩
  cases b with
  | true => exact .inl ⟨by simpa using hb, (Except.ok.inj h).symm⟩
  | false => exact .inr (threeWayPlan_eq_ok h)

/-- The merges that cannot fail once they staged something or moved the branch: a branch that moves
forward to a tip that can be checked out, and a tree without conflicts that is committed and can be. -/
def MergeSafe (env : Env hash) (ns : WorkspaceId) (fromBranch : Path) (cellLevel : Bool)
    (stored : Result Unit) (L : Loom hash) : Prop :=
  (∀ head ours theirs, planMerge env ns fromBranch L = .ok (.fastForward head ours theirs) →
    Unsigned L ns (branchRef head) → CanCheckout env ns L.heap.store theirs) ∧
  ∀ head ours theirs base ourFiles theirFiles dirs,
    planMerge env ns fromBranch L =
      .ok (.threeWay head ours theirs base ourFiles theirFiles dirs) →
    ∀ merged heap, exec (resolveThreeWay env ns base ourFiles theirFiles cellLevel) L.heap =
      (.ok (merged, []), heap) →
    ∀ r g, exec (env.materializeDocuments ns) ⟨heap, merged, dirs, L.inodes, L.pathToInode⟩ = (r, g) →
      Accepted env L ns head stored r g ∧ env.authorize ns .read = .ok () ∧
        Shallow env.isBoundary g.work g.dirs

/-- A merge without conflicts whose trees, the documents written out, are those of the workspace. -/
def MergeIdle (env : Env hash) (ns : WorkspaceId) (fromBranch : Path) (cellLevel : Bool)
    (L : Loom hash) : Prop :=
  ∃ head ours theirs base ourFiles theirFiles dirs merged heap r g,
    planMerge env ns fromBranch L =
      .ok (.threeWay head ours theirs base ourFiles theirFiles dirs) ∧
    exec (resolveThreeWay env ns base ourFiles theirFiles cellLevel) L.heap =
      (.ok (merged, []), heap) ∧
    exec (env.materializeDocuments ns) ⟨heap, merged, dirs, L.inodes, L.pathToInode⟩ = (r, g) ∧
    g.work = L.workOf ns ∧ g.dirs = L.dirsOf ns

omit [ToString D] in
theorem Unchanged.of_heap (h : Heap hash) : Unchanged ns L { L with heap := h } :=
  ⟨rfl, rfl, rfl, rfl, fun _ _ => rfl⟩

theorem enterMergeConflictState_error {merged base ourFiles theirFiles : WorkTree D}
    {unresolved : List Path} {e : LoomError} {L' : Loom hash}
    (h : exec (enterMergeConflictState env ns fromBranch ours theirs merged dirs base ourFiles
      theirFiles unresolved) L = (.error e, L')) :
    ∃ heap, L' = { L with heap := heap } := by
  rw [enterMergeConflictState, exec_get_bind, exec_bind_eq_error] at h
  obtain h | ⟨staged, L₁, -, h⟩ := h
  · rw [exec_onHeap] at h
    exact ⟨_, (congrArg Prod.snd h).symm⟩
  · simp only [exec_modify_bind, exec_pure, Prod.mk.injEq, reduceCtorEq, false_and] at h

theorem fastForward_unchanged_iff (htip : L.registry.branchTip ns head = .ok (some ours))
    (hne : theirs ≠ ours) (hanc : isAncestor L.heap.store ours theirs = .ok true)
    (o : MergeOutcome D) :
    (∀ e L', exec (advanceBranch env ns head (some ours) theirs >>= fun _ => pure o) L =
      (.error e, L') → Unchanged ns L L') ↔
    (Unsigned L ns (branchRef head) → CanCheckout env ns L.heap.store theirs) := by
  obtain ⟨hu, e, he⟩ | ⟨hu, hcc, L', hL'⟩ | ⟨hu, hcc, e, L', hL', htip'⟩ :=
    advanceBranch_spec env htip hanc
  · refine ⟨fun _ h => absurd h hu, fun _ e' L' h => ?_⟩
    rw [exec_bind_of_error he] at h
    obtain rfl : L = L' := congrArg Prod.snd h
    exact Unchanged.of_heap L.heap
  · refine ⟨fun _ _ => hcc, fun _ e' L'' h => ?_⟩
    rw [exec_bind_of_ok hL'] at h
    exact absurd (congrArg Prod.fst h) (by simp)
  · refine ⟨fun h _ => ?_, fun h => absurd (h hu) hcc⟩
    have htips := (h e L' (exec_bind_of_error hL' _)).tips ns head
    rw [htip', Registry.tip_of_branchTip htip] at htips
    exact absurd (Option.some.inj htips) hne

/-- **When a merge without conflicts fails unchanged**, once its trees are staged. -/
theorem cleanMerge_unchanged (hinj : Function.Injective hash) (stored : Result Unit) (fromBranch : Path)
    (author : String) (timestampMs : UInt64) {heap : Heap hash} {merged : WorkTree D}
    (hmat : exec (env.materializeDocuments ns) ⟨heap, merged, dirs, L.inodes, L.pathToInode⟩ = (r, g))
    (htip : L.registry.branchTip ns head = .ok (some ours)) {A A' : SortedSet D}
    (hle : L.heap ≤ heap) (hours : ancestors L.heap.store ours = .ok A) (hnot : theirs ∉ A)
    (htheirs : ancestors L.heap.store theirs = .ok A') :
    let x := exec (commitMerge env ns fromBranch stored head ours theirs author timestampMs)
      { L with heap := heap, work := L.work.insert ns merged, dirs := L.dirs.insert ns dirs }
    (Accepted env L ns head stored r g ∧ env.authorize ns .read = .ok () ∧
      Shallow env.isBoundary g.work g.dirs ∧ ∃ o L', x = (.ok o, L')) ∨
    ∃ e L', x = (.error e, L') ∧
      ¬ (Accepted env L ns head stored r g ∧ env.authorize ns .read = .ok () ∧
        Shallow env.isBoundary g.work g.dirs) ∧
      (Unchanged ns L L' → g.work = L.workOf ns ∧ g.dirs = L.dirsOf ns) := by
  intro x
  set L₁ : Loom hash :=
    { L with heap := heap, work := L.work.insert ns merged, dirs := L.dirs.insert ns dirs } with hL₁
  have hstage : L₁.staging ns = ⟨heap, merged, dirs, L.inodes, L.pathToInode⟩ := by
    simp [hL₁, staging, workOf, dirsOf]
  rw [← hstage] at hmat
  have hacc : Accepted env L₁ ns head stored r g ↔ Accepted env L ns head stored r g := Iff.rfl
  obtain ⟨ha, hread, hsh, o, L', hL'⟩ | ⟨ha, hno, e, L', hL', htip'⟩ |
    ⟨ha, e, L', hL', hwork, hdirs, -⟩ :=
    commitMerge_spec hinj fromBranch author timestampMs hmat htip (ancestors_mono hle hours) hnot
      (ancestors_mono hle htheirs)
  · exact .inl ⟨hacc.mp ha, hread, hsh, o, L', hL'⟩
  · refine .inr ⟨e, L', hL', fun h => hno h.2, fun h => absurd (h.tips ns head) ?_⟩
    rw [Registry.tip_of_branchTip htip]
    exact htip'
  · refine .inr ⟨e, L', hL', fun h => ha (hacc.mpr h.1), fun h => ?_⟩
    exact ⟨hwork.symm.trans h.work, hdirs.symm.trans h.dirs⟩

variable (env ns) in
theorem mergeInnerWith_unchanged (hinj : Function.Injective hash) (fromBranch : Path)
    (stored : Result Unit) (author : String) (timestampMs : UInt64) (cellLevel : Bool)
    (L : Loom hash) :
    let fails := ∀ e L', exec (mergeInnerWith env ns fromBranch stored author timestampMs cellLevel) L =
      (.error e, L') → Unchanged ns L L'
    (MergeSafe env ns fromBranch cellLevel stored L → fails) ∧
      (fails → MergeSafe env ns fromBranch cellLevel stored L ∨
        MergeIdle env ns fromBranch cellLevel L) := by
  intro fails
  -- every end but that of a merge without conflicts is safe exactly if it fails unchanged
  suffices h : (fails ↔ MergeSafe env ns fromBranch cellLevel stored L) ∨
      (MergeSafe env ns fromBranch cellLevel stored L → fails) ∧
        (fails → MergeIdle env ns fromBranch cellLevel L) by
    obtain h | ⟨h, h'⟩ := h
    · exact ⟨h.mpr, fun hf => .inl (h.mp hf)⟩
    · exact ⟨h, fun hf => .inr (h' hf)⟩
  revert fails
  rw [mergeInnerWith, exec_get_bind]
  simp only [exec_lift_bind]
  rcases hplan : planMerge env ns fromBranch L with e | plan
  · refine .inl ⟨fun _ => ⟨fun _ _ _ h => by simp [hplan] at h, fun _ _ _ _ _ _ _ h => by
      simp [hplan] at h⟩, fun _ e' L' h => ?_⟩
    obtain rfl : L = L' := congrArg Prod.snd h
    exact Unchanged.of_heap L.heap
  obtain rfl | ⟨head, ours, theirs, htip, A, A', hA, hnot, hA', ⟨hmem, rfl⟩ |
    ⟨base, ourFiles, theirFiles, dirs, rfl⟩⟩ := planMerge_eq_ok hplan
  · refine .inl ⟨fun _ => ⟨fun _ _ _ h => by simp [hplan] at h, fun _ _ _ _ _ _ _ h => by
      simp [hplan] at h⟩, fun _ e' L' h => ?_⟩
    simp at h
  · have hanc : isAncestor L.heap.store ours theirs = .ok true :=
      isAncestor_eq_ok.mpr ⟨A', hA', by simpa using hmem⟩
    have hne : theirs ≠ ours := fun h => hnot (h ▸ ((ancestors_spec hA).1 ours).mpr .refl)
    refine .inl ((fastForward_unchanged_iff htip hne hanc _).trans
      ⟨fun h => ⟨fun _ _ _ h' => ?_, fun _ _ _ _ _ _ _ h' => by simp [hplan] at h'⟩,
        fun h => h.1 head ours theirs hplan⟩)
    rw [hplan] at h'
    obtain ⟨rfl, rfl, rfl⟩ := MergePlan.fastForward.inj (Except.ok.inj h')
    exact h
  have hsafe : MergeSafe env ns fromBranch cellLevel stored L ↔
      ∀ merged heap, exec (resolveThreeWay env ns base ourFiles theirFiles cellLevel) L.heap =
        (.ok (merged, []), heap) →
      ∀ r g, exec (env.materializeDocuments ns) ⟨heap, merged, dirs, L.inodes, L.pathToInode⟩ =
        (r, g) →
      Accepted env L ns head stored r g ∧ env.authorize ns .read = .ok () ∧
        Shallow env.isBoundary g.work g.dirs := by
    refine ⟨fun h => h.2 head ours theirs base ourFiles theirFiles dirs hplan, fun h =>
      ⟨fun _ _ _ h' => by simp [hplan] at h', fun _ _ _ _ _ _ _ h' => ?_⟩⟩
    rw [hplan] at h'
    obtain ⟨rfl, rfl, rfl, rfl, rfl, rfl, rfl⟩ := MergePlan.threeWay.inj (Except.ok.inj h')
    exact h
  rw [hsafe]
  change let fails := ∀ e L', exec (onHeap (resolveThreeWay env ns base ourFiles theirFiles
    cellLevel) >>= _) L = (.error e, L') → _; (fails ↔ _) ∨ (_ → fails) ∧ (fails → _)
  rcases hres : exec (resolveThreeWay env ns base ourFiles theirFiles cellLevel) L.heap
    with ⟨e | ⟨merged, unresolved⟩, heap⟩
  · refine .inl ⟨fun _ _ _ h => by simp at h, fun _ e' L' h => ?_⟩
    rw [exec_bind_of_error (by rw [exec_onHeap, hres])] at h
    obtain rfl := congrArg Prod.snd h
    exact Unchanged.of_heap heap
  have hheap : exec (onHeap (resolveThreeWay env ns base ourFiles theirFiles cellLevel)) L =
      (.ok (merged, unresolved), { L with heap := heap }) := by rw [exec_onHeap, hres]
  rw [exec_bind_of_ok hheap]
  by_cases hun : unresolved = []
  swap
  · refine .inl ⟨fun _ m h' hm => by simp [hun] at hm, fun _ e' L' h => ?_⟩
    simp only [ne_eq, hun, not_false_eq_true, if_true] at h
    obtain ⟨heap', rfl⟩ := enterMergeConflictState_error h
    exact Unchanged.of_heap heap'
  subst hun
  have hle : L.heap ≤ heap := by
    have h := resolveThreeWay_le env ns base ourFiles theirFiles cellLevel L.heap
    rwa [hres] at h
  rcases hmat : exec (env.materializeDocuments ns) ⟨heap, merged, dirs, L.inodes, L.pathToInode⟩
    with ⟨r, g⟩
  simp only [ne_eq, not_true_eq_false, if_false, exec_modify_bind]
  obtain ⟨ha, hread, hsh, o, L', hL'⟩ | ⟨e, L', hL', hno, hidle⟩ :=
    cleanMerge_unchanged hinj stored fromBranch author timestampMs hmat htip hle hA hnot hA'
  · refine .inl ⟨fun _ m h' hm r' g' hg => ?_, fun _ e' L'' h => ?_⟩
    · obtain ⟨rfl, rfl⟩ : merged = m ∧ heap = h' := by simpa using hm
      obtain ⟨rfl, rfl⟩ : r = r' ∧ g = g' := by simpa [hmat] using hg
      exact ⟨ha, hread, hsh⟩
    · exact absurd (congrArg Prod.fst (hL'.symm.trans h)) (by simp)
  · refine .inr ⟨fun h => absurd (h merged heap rfl r g hmat) hno, fun h => ?_⟩
    exact ⟨head, ours, theirs, base, ourFiles, theirFiles, dirs, merged, heap, r, g, hplan, hres, hmat,
      hidle (h e L' hL')⟩

/-- One branch adds a file where the other adds a directory. -/
def collidingHistory : Update (ContentStore freeHash) (List (String × FreeDigest)) := do
  let base ← Sample.storeCommit [] [] []
  let ours ← Sample.storeCommit [("a", Sample.file 1)] [] [base]
  let theirs ← Sample.storeCommit [("a/b", Sample.file 2)] ["a"] [base]
  return [("main", ours), ("dev", theirs)]

theorem exec_merge_colliding : ∃ e L',
    exec (merge Sample.plainEnv Sample.ns "dev".toList (.ok ()) "author" 2) (Sample.loom collidingHistory) =
      (.error e, L') ∧ ¬ Unchanged Sample.ns (Sample.loom collidingHistory) L' := by
  have hfail : (exec (merge Sample.plainEnv Sample.ns "dev".toList (.ok ()) "author" 2)
    (Sample.loom collidingHistory)).1.isOk = false := by decide +kernel
  have hwork : (exec (merge Sample.plainEnv Sample.ns "dev".toList (.ok ()) "author" 2)
    (Sample.loom collidingHistory)).2.workOf Sample.ns ≠
      (Sample.loom collidingHistory).workOf Sample.ns := by decide +kernel
  rcases hx : exec (merge Sample.plainEnv Sample.ns "dev".toList (.ok ()) "author" 2)
    (Sample.loom collidingHistory) with ⟨e | o, L'⟩
  · rw [hx] at hwork
    exact ⟨e, L', rfl, fun h => hwork h.work⟩
  · rw [hx] at hfail
    exact absurd hfail (by simp [Except.isOk, Except.toBool])

end Loom

end UldrenLoom.Vcs
