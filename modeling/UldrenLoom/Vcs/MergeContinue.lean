import UldrenLoom.Lib.Machine
import UldrenLoom.Vcs.Commands

/-!
# Finishing a merge

A merge that stops at conflicts records its two commits and not the branch it was started on.

* **`advancesOnly_iff`**: only the branch that was merged into moves exactly if it is current again at
  the end.
* **`Sample.other_branch_advances`**: another branch moves.
-/

set_option linter.unusedSectionVars false

namespace UldrenLoom.Vcs

open ByteString Fallible Effect Machine

variable {D : Type} [LinearOrder D] [ToString D] {hash : Stored D → D}

namespace Loom

/-! ## Steps that move no ref -/

/-- Refs, policies, merges and pending sections are the same, and no object is lost. -/
structure Quiet (L L' : Loom hash) : Prop where
  registry : L'.registry = L.registry
  protectedRefs : L'.protectedRefs = L.protectedRefs
  mergeState : L'.mergeState = L.mergeState
  sections : L'.lazyStateSections = L.lazyStateSections
  store : L.heap.store ≤ L'.heap.store

instance : IsPreorder (Loom hash) Quiet where
  refl _ := ⟨rfl, rfl, rfl, rfl, le_rfl⟩
  trans _ _ _ h h' := ⟨h'.registry.trans h.registry, h'.protectedRefs.trans h.protectedRefs,
    h'.mergeState.trans h.mergeState, h'.sections.trans h.sections, h.store.trans h'.store⟩

variable {env : Env hash} {faults : D → Option LoomError} {ns : WorkspaceId}

theorem quiet_lift {α : Type} (x : Result α) :
    Keeps Quiet (liftM x : Update (Loom hash) α) := fun L => refl_of Quiet L

theorem quiet_onStore {α : Type} {x : Update (ContentStore hash) α} (h : Keeps (· ≤ ·) x) :
    Keeps Quiet (onStore x : Update (Loom hash) α) := fun _ => ⟨rfl, rfl, rfl, rfl, h _⟩

theorem quiet_putObject (o : Object D) :
    Keeps Quiet (onStore (putObject o) : Update (Loom hash) D) :=
  quiet_onStore fun s => ContentStore.le_put s _

theorem quiet_buildSubtree (hinj : Function.Injective hash) (files : WorkTree D) (dirs : DirSet) :
    Keeps Quiet (onStore (buildSubtree env.isBoundary files dirs []) : Update (Loom hash) D) := by
  refine quiet_onStore fun s => ?_
  obtain ⟨s', hle, ⟨_, _, hex, _⟩ | ⟨_, _, hex⟩⟩ :=
    buildSubtree_spec env.isBoundary files dirs hinj s <;> rwa [hex]

variable (env ns) in
theorem quiet_materialize : Keeps Quiet
    (zoom (staging · ns) (setStaging ns) (env.materializeDocuments ns) : Update (Loom hash) Unit) :=
  fun L => ⟨rfl, rfl, rfl, rfl, env.materializeDocuments_le ns (L.staging ns)⟩

variable (env ns) in
theorem quiet_snapshotTree (hinj : Function.Injective hash) : Keeps Quiet (snapshotTree env ns) :=
  keeps_bind (quiet_materialize env ns) fun _ => keeps_bind keeps_get fun _ =>
    keeps_bind (quiet_lift _) fun _ => keeps_bind (quiet_lift _) fun _ => quiet_buildSubtree hinj _ _

variable (env ns) in
theorem quiet_checkoutCommit (commit : D) : Keeps Quiet (checkoutCommit env ns commit) :=
  keeps_bind (quiet_lift _) fun _ => keeps_bind keeps_get fun _ => keeps_bind (quiet_lift _) fun _ =>
    fun _ => ⟨rfl, rfl, rfl, rfl, le_rfl⟩

/-! ## What a merge records -/

/-- The commits that a merge in progress will have as parents. -/
def recorded (L : Loom hash) (ns : WorkspaceId) : Option (D × D) :=
  (L.mergeState.get ns).map fun m => (m.ourHead, m.otherParent)

variable {L L' : Loom hash}

theorem mergeTips_eq_ok {fromBranch : Path} {tips : Path × D × D}
    (h : mergeTips env ns fromBranch L = .ok tips) :
    L.registry.headBranch ns = .ok tips.1 ∧ L.registry.branchTip ns tips.1 = .ok (some tips.2.1) ∧
      L.registry.branchTip ns fromBranch = .ok (some tips.2.2) := by
  obtain ⟨_, h⟩ := ite_error_eq_ok.mp h
  obtain ⟨head, hhead, h⟩ := of_bind h
  obtain ⟨⟨⟩, -, h⟩ := of_bind h
  obtain ⟨⟨⟩, -, h⟩ := of_bind h
  obtain ⟨_ | ours, hours, h⟩ := of_bind h
  · cases h
  obtain ⟨_ | theirs, htheirs, h⟩ := of_bind h
  · cases h
  cases h
  exact ⟨hhead, hours, htheirs⟩

/-- **A merge with conflicts records the tips of both branches** and moves nothing. -/
theorem mergeInner_conflicts {fromBranch : Path} {author : String} {timestampMs : UInt64}
    {cellLevel : Bool} {paths : List Path}
    (h : exec (mergeInner env ns fromBranch author timestampMs cellLevel) L =
      (.ok (.conflicts paths), L')) :
    ∃ head ours theirs, L.registry.headBranch ns = .ok head ∧
      L.registry.branchTip ns head = .ok (some ours) ∧
      L.registry.branchTip ns fromBranch = .ok (some theirs) ∧
      (∃ A, ancestors L.heap.store ours = .ok A ∧ theirs ∉ A) ∧ recorded L' ns = some (ours, theirs) := by
  rw [mergeInner, mergeInnerWith, exec_get_bind] at h
  obtain ⟨plan, hplan, h⟩ := exec_lift_bind_eq_ok.mp h
  obtain ⟨⟨head, ours, theirs⟩, htips, hplan⟩ := of_bind hplan
  obtain ⟨hhead, hours, htheirs⟩ := mergeTips_eq_ok htips
  obtain ⟨_ | _, hcont, hplan⟩ := of_bind hplan
  swap
  · cases hplan
    exact absurd (congrArg Prod.fst h) (by simp)
  unfold contained at hcont
  split_ifs at hcont with heq
  · cases hcont
  obtain ⟨A, hA, hnot⟩ := isAncestor_eq_ok.mp hcont
  obtain ⟨_ | _, _, hplan⟩ := of_bind hplan
  swap
  · cases hplan
    obtain ⟨⟨⟩, _, _, h⟩ := exec_bind_eq_ok.mp h
    exact absurd (congrArg Prod.fst h) (by simp)
  obtain ⟨base, ourFiles, theirFiles, dirs, rfl⟩ := threeWayPlan_eq_ok hplan
  refine ⟨head, ours, theirs, hhead, hours, htheirs, ⟨A, hA, by simpa using hnot⟩, ?_⟩
  obtain ⟨⟨merged, unresolved⟩, L₁, hres, h⟩ := exec_bind_eq_ok.mp h
  simp only at h
  split_ifs at h with hun
  · rw [enterMergeConflictState, exec_get_bind] at h
    obtain ⟨staged, L₂, _, h⟩ := exec_bind_eq_ok.mp h
    obtain ⟨⟨⟩, L₃, hmod, h⟩ := exec_bind_eq_ok.mp h
    cases hmod
    cases h
    simp [recorded]
  · obtain ⟨⟨⟩, L₂, _, h⟩ := exec_bind_eq_ok.mp h
    obtain ⟨root, L₃, _, h⟩ := exec_bind_eq_ok.mp h
    obtain ⟨digest, L₄, _, h⟩ := exec_bind_eq_ok.mp h
    obtain ⟨⟨⟩, L₅, _, h⟩ := exec_bind_eq_ok.mp h
    exact absurd (congrArg Prod.fst h) (by simp)

theorem advanceBranch_tips {head : Path} {old : Option D} {new : D}
    (h : exec (advanceBranch env ns head old new) L = (.ok (), L')) :
    L.registry.tip ns head = old ∧ L'.heap.store = L.heap.store ∧ ∀ id branch,
      L'.registry.tip id branch =
        if ns = id ∧ head = branch then some new else L.registry.tip id branch := by
  have hheap := (advanceBranch_ok h).2
  rw [advanceBranch, exec_get_bind] at h
  obtain ⟨⟨⟩, -, h⟩ := exec_lift_bind_eq_ok.mp h
  obtain ⟨⟨⟩, L₂, h2, h⟩ := exec_bind_eq_ok.mp h
  rw [exec_updateBranch] at h2
  cases hreg : L.registry.updateBranch ns head old new with
  | error e => simp [hreg] at h2
  | ok reg =>
    rw [hreg] at h2
    cases h2
    have hquiet := quiet_checkoutCommit env ns new { L with registry := reg }
    rw [h] at hquiet
    have htip := Registry.tip_of_branchTip (Registry.updateBranch_ok_iff.mp hreg).1
    refine ⟨htip, by rw [hheap], fun id branch => ?_⟩
    rw [hquiet.registry]
    exact Registry.tip_updateBranch hreg id branch

/-- **The end of a merge moves the branch that is current then.** -/
theorem mergeContinue_eq_ok (hinj : Function.Injective hash) {author : String}
    {timestampMs : UInt64} {digest : D}
    (h : exec (mergeContinue env ns author timestampMs) L = (.ok digest, L')) :
    ∃ ours theirs head c, recorded L ns = some (ours, theirs) ∧ L.registry.headBranch ns = .ok head ∧
      L.registry.tip ns head = some ours ∧ digest = hash (.object (.commit c)) ∧
      c.parents = [ours, theirs] ∧ getCommit L'.heap.store digest = .ok c ∧ ∀ id branch,
        L'.registry.tip id branch =
          if ns = id ∧ head = branch then some digest else L.registry.tip id branch := by
  rw [mergeContinue] at h
  obtain ⟨⟨⟩, -, h⟩ := exec_lift_bind_eq_ok.mp h
  rw [exec_get_bind] at h
  cases hm : L.mergeState.get ns with
  | none =>
    rw [hm] at h
    exact absurd (congrArg Prod.fst h) (by simp)
  | some m =>
    simp only [hm] at h
    split_ifs at h with hconf
    · exact absurd (congrArg Prod.fst h) (by simp)
    obtain ⟨head, hhead, h⟩ := exec_lift_bind_eq_ok.mp h
    obtain ⟨root, L₁, hroot, h⟩ := exec_bind_eq_ok.mp h
    have hquiet := quiet_snapshotTree env ns hinj L
    rw [hroot] at hquiet
    obtain ⟨d, L₂, hput, h⟩ := exec_bind_eq_ok.mp h
    cases hput
    obtain ⟨⟨⟩, L₃, hadv, h⟩ := exec_bind_eq_ok.mp h
    cases h
    obtain ⟨htip, hstore, htips⟩ := advanceBranch_tips hadv
    have hreg : L₁.registry = L.registry := hquiet.registry
    refine ⟨m.ourHead, m.otherParent, head, _, by rw [recorded, hm]; rfl, hhead, ?_, rfl, rfl, ?_, ?_⟩
    · rw [← hreg]
      exact htip
    · rw [hstore]
      exact getCommit_eq_ok.mpr (getObject_put hinj _ (Object.decode_commit _))
    · intro id branch
      rw [htips]
      rw [hreg]

/-! ## In between -/

section Between

variable [DigestCode D]

/-- The calls between the start and the end of a merge. -/
inductive Call (hash : Stored D → D) where
  | resolve (path : Path) (resolution : ConflictResolution)
  | edit (L : Loom hash)
  | checkoutCommit (commit : D)
  | checkoutBranch (branch : Path)
  | branch (name : Path)
  | commit (author message : String) (timestampMs : UInt64)
  | commitStaged (author message : String) (timestampMs : UInt64)

variable (env faults ns) in
def step (c : Call hash) (L : Loom hash) : Result Unit × Loom hash :=
  match c with
  | .resolve path resolution => exec (mergeResolve env ns path resolution) L
  | .edit L' => (.ok (), L')
  | .checkoutCommit d => exec (checkoutCommit env ns d) L
  | .checkoutBranch b => exec (checkoutBranch env ns b) L
  | .branch name => exec (branch env ns name) L
  | .commit author message time =>
    exec (commit env faults ns author message time >>= fun _ => pure ()) L
  | .commitStaged author message time =>
    exec (commitStaged env faults ns author message time >>= fun _ => pure ()) L

/-- Editing files changes no ref and no merge. -/
def Allowed (L : Loom hash) : Call hash → Prop
  | .edit L' => L'.registry = L.registry ∧ L'.mergeState = L.mergeState ∧
      L'.lazyStateSections = L.lazyStateSections
  | _ => True

/-- Without pending sections, the merge in progress keeps its commits. -/
def KeepsRecord (ns : WorkspaceId) (L L' : Loom hash) : Prop :=
  L.lazyStateSections = none → L'.lazyStateSections = none ∧ recorded L' ns = recorded L ns

instance : IsPreorder (Loom hash) (KeepsRecord ns) where
  refl _ h := ⟨h, rfl⟩
  trans _ _ _ h h' hnone := by
    obtain ⟨hnone', heq⟩ := h hnone
    obtain ⟨hnone'', heq'⟩ := h' hnone'
    exact ⟨hnone'', heq'.trans heq⟩

theorem Quiet.keepsRecord {L L' : Loom hash} (h : Quiet L L') : KeepsRecord ns L L' :=
  fun hnone => ⟨h.sections.trans hnone, by rw [recorded, h.mergeState]; rfl⟩

theorem keepsRecord_lift {α : Type} (x : Result α) :
    Keeps (KeepsRecord ns) (liftM x : Update (Loom hash) α) := fun L => refl_of _ L

theorem keepsRecord_modify {f : Loom hash → Loom hash}
    (h : ∀ L, (f L).lazyStateSections = L.lazyStateSections ∧ (f L).mergeState = L.mergeState) :
    Keeps (KeepsRecord ns) (modify f : Update (Loom hash) Unit) :=
  fun L hnone => ⟨(h L).1.trans hnone, by rw [exec_modify, recorded, (h L).2]; rfl⟩

theorem keepsRecord_onRegistry (f : Registry D → Result (Registry D)) :
    Keeps (KeepsRecord ns) (onRegistry f : Update (Loom hash) Unit) :=
  keeps_bind keeps_get fun _ => keeps_bind (keepsRecord_lift _) fun _ =>
    keepsRecord_modify fun _ => ⟨rfl, rfl⟩

theorem keepsRecord_updateBranch (branch : Path) (old : Option D) (new : D) :
    Keeps (KeepsRecord ns) (updateBranch ns branch old new : Update (Loom hash) Unit) :=
  keepsRecord_onRegistry fun reg => reg.updateBranch ns branch old new

theorem keepsRecord_checkoutCommit (d : D) : Keeps (KeepsRecord ns) (checkoutCommit env ns d) :=
  fun L => (quiet_checkoutCommit env ns d L).keepsRecord

theorem keepsRecord_commitFiles (hinj : Function.Injective hash) (filesOf : Loom hash → WorkTree D)
    (author message : String) (timestampMs : UInt64) :
    Keeps (KeepsRecord ns) (commitFiles env faults ns filesOf author message timestampMs) := by
  refine keeps_bind (fun L hnone => ?_) fun _ => keeps_bind keeps_get fun _ =>
    keeps_bind (keepsRecord_lift _) fun _ => keeps_bind (keepsRecord_lift _) fun _ =>
    keeps_bind (keepsRecord_lift _) fun _ => keeps_bind keeps_get fun _ =>
    keeps_bind (keepsRecord_lift _) fun parent =>
    keeps_bind (fun L => (quiet_materialize env ns L).keepsRecord) fun _ =>
    keeps_bind keeps_get fun _ => keeps_bind (keepsRecord_lift _) fun _ =>
    keeps_bind (fun L => (quiet_buildSubtree hinj _ _ L).keepsRecord) fun _ =>
    keeps_bind (fun L => (quiet_putObject _ L).keepsRecord) fun _ => keeps_bind keeps_get fun _ =>
    keeps_bind (keepsRecord_lift _) fun _ => ?_
  · rw [ensureFullStateLoaded, exec_get_bind, hnone]
    exact ⟨hnone, rfl⟩
  · cases parent with
    | none => exact keeps_bind (keepsRecord_onRegistry _) fun _ => keeps_pure _
    | some tip => exact keeps_bind (keepsRecord_updateBranch _ _ _) fun _ => keeps_pure _

theorem keepsRecord_commit (hinj : Function.Injective hash) (author message : String)
    (timestampMs : UInt64) :
    Keeps (KeepsRecord ns) (commit env faults ns author message timestampMs) :=
  keeps_bind (keepsRecord_commitFiles hinj _ author message timestampMs) fun _ =>
    keeps_bind (keepsRecord_modify fun _ => ⟨rfl, rfl⟩) fun _ => keeps_pure _

theorem keepsRecord_commitStaged (hinj : Function.Injective hash) (author message : String)
    (timestampMs : UInt64) :
    Keeps (KeepsRecord ns) (commitStaged env faults ns author message timestampMs) :=
  keeps_bind (keepsRecord_commitFiles hinj _ author message timestampMs) fun _ => keeps_pure _

theorem keepsRecord_mergeResolve (path : Path) (resolution : ConflictResolution) :
    Keeps (KeepsRecord ns) (mergeResolve env ns path resolution) := by
  refine keeps_bind (keepsRecord_lift _) fun _ => keeps_bind (keepsRecord_lift _) fun path L hnone => ?_
  rw [exec_get_bind]
  cases hm : L.mergeState.get ns with
  | none => exact ⟨hnone, rfl⟩
  | some m =>
    dsimp only
    cases m.conflicts.find? (·.path = path) with
    | none => exact ⟨hnone, rfl⟩
    | some c => exact ⟨hnone, by simp [recorded, hm]⟩

/-- **No call in between changes the commits of the merge.** -/
theorem recorded_step (hinj : Function.Injective hash) (L : Loom hash) (c : Call hash)
    (hc : Allowed L c) : KeepsRecord ns L (step env faults ns c L).2 := by
  cases c with
  | resolve path resolution => exact keepsRecord_mergeResolve path resolution L
  | edit L' => exact fun hnone => ⟨hc.2.2.trans hnone, by rw [recorded, step, hc.2.1]; rfl⟩
  | checkoutCommit d => exact keepsRecord_checkoutCommit d L
  | checkoutBranch b =>
    refine keeps_bind (keepsRecord_lift _) (fun _ => keeps_bind (keepsRecord_lift _) fun _ =>
      keeps_bind (keepsRecord_onRegistry _) fun _ => keeps_bind keeps_get fun _ =>
      keeps_bind (keepsRecord_lift _) fun tip => ?_) L
    cases tip with
    | some tip => exact keepsRecord_checkoutCommit tip
    | none => exact keepsRecord_modify fun _ => ⟨rfl, rfl⟩
  | branch name =>
    refine keeps_bind (keepsRecord_lift _) (fun _ => keeps_bind keeps_get fun _ =>
      keeps_bind (keepsRecord_lift _) fun _ => keeps_bind keeps_get fun _ =>
      keeps_bind (keepsRecord_lift _) fun tip => ?_) L
    cases tip with
    | none => exact keeps_throw _
    | some tip =>
      exact keeps_bind keeps_get fun _ => keeps_bind (keepsRecord_lift _) fun _ =>
        keepsRecord_onRegistry _
  | commit author message time =>
    exact keeps_bind (keepsRecord_commit hinj author message time) (fun _ => keeps_pure _) L
  | commitStaged author message time =>
    exact keeps_bind (keepsRecord_commitStaged hinj author message time) (fun _ => keeps_pure _) L

/-! ## Which branch advances -/

/-- The branch moves from `ours` to a merge of `ours` and `theirs`, and no other branch moves. -/
structure AdvancesOnly (ns : WorkspaceId) (b : Path) (ours theirs digest : D) (L L' : Loom hash) :
    Prop where
  before : L.registry.tip ns b = some ours
  after : L'.registry.tip ns b = some digest
  parents : ∃ c, getCommit L'.heap.store digest = .ok c ∧ c.parents = [ours, theirs]
  others : ∀ id branch, ¬ (ns = id ∧ b = branch) →
    L'.registry.tip id branch = L.registry.tip id branch

theorem eq_of_getCommit (hinj : Function.Injective hash) {s : ContentStore hash} {c c' : Commit D}
    (h : getCommit s (hash (.object (.commit c))) = .ok c') : c' = c := by
  have h := getCommit_eq_ok.mp h
  unfold getObject at h
  cases hget : s.get (hash (.object (.commit c))) with
  | none => simp [hget] at h
  | some stored =>
    obtain rfl := hinj (s.addressed hget)
    rw [hget] at h
    cases (Object.decode_commit c).symm.trans h
    rfl

/-- **The branch of the merge advances exactly if it is current at the end**, and its commits are
those it was started with. -/
theorem advancesOnly_iff (hinj : Function.Injective hash) {L₀ L₁ L₂ L₃ : Loom hash}
    {b fromBranch : Path} {ours theirs digest : D} {author author' : String}
    {timestampMs timestampMs' : UInt64} {cellLevel : Bool} {paths : List Path}
    (hhead : L₀.registry.headBranch ns = .ok b)
    (hours : L₀.registry.branchTip ns b = .ok (some ours))
    (htheirs : L₀.registry.branchTip ns fromBranch = .ok (some theirs))
    (hmerge : exec (mergeInner env ns fromBranch author timestampMs cellLevel) L₀ =
      (.ok (.conflicts paths), L₁)) {calls : List (Call hash)}
    (hcalls : Along (step env faults ns) Allowed calls L₁)
    (hrun : run (step env faults ns) calls L₁ = L₂)
    (hcontinue : exec (mergeContinue env ns author' timestampMs') L₂ = (.ok digest, L₃)) :
    (AdvancesOnly ns b ours theirs digest L₂ L₃ ↔
      L₂.registry.headBranch ns = .ok b ∧ recorded L₂ ns = some (ours, theirs)) ∧
    (L₁.lazyStateSections = none → recorded L₂ ns = some (ours, theirs)) := by
  obtain ⟨b', ours', theirs', hhead', hours', htheirs', ⟨A, hA, hnot⟩, hrecorded⟩ :=
    mergeInner_conflicts hmerge
  cases hhead.symm.trans hhead'
  obtain rfl := Option.some.inj (Except.ok.inj (hours.symm.trans hours'))
  obtain rfl := Option.some.inj (Except.ok.inj (htheirs.symm.trans htheirs'))
  obtain ⟨ours', theirs', head, c, hrec, hhead2, htip, hdigest, hparents, hcommit, htips⟩ :=
    mergeContinue_eq_ok hinj hcontinue
  have hne : c.parents = [ours, theirs] → digest ≠ ours := by
    rintro hparents rfl
    obtain ⟨c', hc'⟩ := (ancestors_spec hA).2 digest .refl
    have hcc := eq_of_getCommit hinj (hdigest ▸ hc')
    exact hnot (((ancestors_spec hA).1 theirs).mpr (.single ⟨c', hc', by simp [hcc, hparents]⟩))
  refine ⟨⟨fun h => ?_, ?_⟩, fun hnone => ?_⟩
  · obtain ⟨c', hc', hparents'⟩ := h.parents
    cases hcommit.symm.trans hc'
    obtain ⟨rfl, rfl⟩ : ours' = ours ∧ theirs' = theirs := by simpa [hparents] using hparents'
    refine ⟨?_, hrec⟩
    by_contra hb
    have hafter := h.after
    rw [htips, if_neg fun hhb : ns = ns ∧ head = b => hb (hhb.2 ▸ hhead2), h.before] at hafter
    exact hne hparents (Option.some.inj hafter).symm
  · rintro ⟨hb, hrec'⟩
    obtain ⟨rfl, rfl⟩ : ours' = ours ∧ theirs' = theirs := by simpa [hrec] using hrec'
    cases hhead2.symm.trans hb
    exact ⟨htip, by rw [htips, if_pos ⟨rfl, rfl⟩], ⟨c, hcommit, hparents⟩, fun id branch hother => by
      rw [htips, if_neg hother]⟩
  · have hinv := run_invariant (P := fun L => L.lazyStateSections = none ∧
      recorded L ns = some (ours, theirs)) (fun L c hc hL => by
        obtain ⟨hnone, heq⟩ := recorded_step hinj L c hc hL.1
        exact ⟨hnone, heq.trans hL.2⟩) hcalls ⟨hnone, hrecorded⟩
    rw [hrun] at hinv
    exact hinv.2

end Between

/-! ## Another branch at the same commit -/

namespace Sample

/-- One side changes a file that the other deletes; a third branch is where the first is. -/
def forkedHistory : Update (ContentStore freeHash) (List (String × FreeDigest)) := do
  let base ← Vcs.Sample.storeCommit [("a", Vcs.Sample.file 1)] [] []
  let ours ← Vcs.Sample.storeCommit [("a", Vcs.Sample.file 2)] [] [base]
  let theirs ← Vcs.Sample.storeCommit [] [] [base]
  return [("main", ours), ("dev", theirs), ("other", ours)]

def forked : Loom freeHash := Vcs.Sample.loom forkedHistory

def tipOf (L : Loom freeHash) (branch : String) : FreeDigest :=
  (L.registry.tip Vcs.Sample.ns branch.toList).getD []

def started : Result (MergeOutcome FreeDigest) × Loom freeHash :=
  exec (merge Vcs.Sample.plainEnv Vcs.Sample.ns "dev".toList (.ok ()) "author" 2) forked

/-- The state before the merge is finished, after the calls. -/
def prepared (calls : List (Call freeHash)) : Loom freeHash :=
  run (step Vcs.Sample.plainEnv noFaults Vcs.Sample.ns) calls started.2

def finished (calls : List (Call freeHash)) : Result FreeDigest × Loom freeHash :=
  exec (mergeContinue Vcs.Sample.plainEnv Vcs.Sample.ns "author" 3) (prepared calls)

def settle : Call freeHash := .resolve "a".toList .ours

/-- **After a checkout of another branch at the same commit, that branch gets the merge.** -/
theorem other_branch_advances : ∃ digest, started.1 = .ok (.conflicts ["a".toList]) ∧
      (finished [.checkoutBranch "other".toList, settle]).1 = .ok digest ∧
      ¬ AdvancesOnly Vcs.Sample.ns "main".toList (tipOf forked "main") (tipOf forked "dev") digest
        (prepared [.checkoutBranch "other".toList, settle])
        (finished [.checkoutBranch "other".toList, settle]).2 := by
  have hok : (finished [.checkoutBranch "other".toList, settle]).1 =
      .ok (tipOf (finished [.checkoutBranch "other".toList, settle]).2 "other") := by decide +kernel
  refine ⟨_, by decide +kernel, hok, fun h => ?_⟩
  have hsame := h.others Vcs.Sample.ns "other".toList (by decide +kernel)
  exact absurd hsame (by decide +kernel)

theorem eq_mk {α β : Type} {p : α × β} {a : α} (h : p.1 = a) : p = (a, p.2) := by
  rw [← h]

/-- Without the checkout the merge goes to its own branch. -/
theorem advancesOnly_settled : ∃ digest, (finished [settle]).1 = .ok digest ∧
    AdvancesOnly Vcs.Sample.ns "main".toList (tipOf forked "main") (tipOf forked "dev") digest
      (prepared [settle]) (finished [settle]).2 := by
  have hmerge : started = (.ok (.conflicts ["a".toList]), started.2) := eq_mk (by decide +kernel)
  have hok : finished [settle] = (.ok (tipOf (finished [settle]).2 "main"), (finished [settle]).2) :=
    eq_mk (by decide +kernel)
  refine ⟨_, congrArg Prod.fst hok, ?_⟩
  have hhead : forked.registry.headBranch Vcs.Sample.ns = .ok "main".toList := by decide +kernel
  have hours : forked.registry.branchTip Vcs.Sample.ns "main".toList =
      .ok (some (tipOf forked "main")) := by decide +kernel
  have htheirs : forked.registry.branchTip Vcs.Sample.ns "dev".toList =
      .ok (some (tipOf forked "dev")) := by decide +kernel
  have hcalls : Along (step Vcs.Sample.plainEnv noFaults Vcs.Sample.ns) Allowed [settle] started.2 :=
    ⟨trivial, trivial⟩
  have hiff := advancesOnly_iff freeHash_injective hhead hours htheirs hmerge hcalls rfl hok
  exact hiff.1.mpr ⟨by decide +kernel, hiff.2 (by decide +kernel)⟩

end Sample

end Loom

end UldrenLoom.Vcs
