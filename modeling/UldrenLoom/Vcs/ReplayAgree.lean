import UldrenLoom.Vcs.Replay

/-!
# Dry runs of a replay

A dry run applies the patches without storing trees and commits. Whether the trees can be stored only
a real run finds out.

* **`replay_agrees_iff`**: a dry run and a real run agree exactly if all trees can be stored, and the
  last one can be read back.
-/

namespace UldrenLoom.Vcs

open ByteString Fallible Effect

variable {D : Type} [LinearOrder D] [ToString D] {hash : Stored D → D}

/-- A dry run is clean exactly if the real run replays, and the other outcomes are the same. -/
structure Agrees (dry real : Result (ReplayOutcome D)) : Prop where
  clean : dry = .ok .clean ↔ ∃ d, real = .ok (.replayed d)
  conflicts : ∀ paths, dry = .ok (.conflicts paths) ↔ real = .ok (.conflicts paths)
  empty : dry = .ok .empty ↔ real = .ok .empty

/-- The structured merges end the same way whatever else the store holds. -/
structure Env.Steady (env : Env hash) : Prop where
  rowMergeTable : ∀ base ours theirs cellLevel,
    Parallel Heap.Grown (env.rowMergeTable base ours theirs cellLevel)
  mergeDocumentRoots : ∀ ns base ours theirs,
    Parallel Heap.Grown (env.mergeDocumentRoots ns base ours theirs)
  vectorEntryMerge : ∀ ns path base ours theirs,
    Parallel Heap.Grown (env.vectorEntryMerge ns path base ours theirs)
  searchCollectionMerge : ∀ ns path base ours theirs merged,
    Parallel Heap.Grown (env.searchCollectionMerge ns path base ours theirs merged)

omit [ToString D] in
theorem Env.steady_plain (contentAddress : Bytes → D) :
    (Env.plain contentAddress : Env hash).Steady where
  rowMergeTable _ _ _ _ := parallel_pure none
  mergeDocumentRoots _ _ _ _ := parallel_pure none
  vectorEntryMerge _ _ _ _ _ := parallel_pure none
  searchCollectionMerge _ _ _ _ _ _ := parallel_pure none

omit [ToString D] in
theorem resolveThreeWay_parallel {env : Env hash} (hsteady : env.Steady) (ns : WorkspaceId)
    (base ours theirs : WorkTree D) (cellLevel : Bool) :
    Parallel Heap.Grown (resolveThreeWay env ns base ours theirs cellLevel) := by
  refine parallel_foldlM (fun acc path _ => ?_) _
  refine parallel_bind (parallel_firstSome ?_) fun r => ?_
  · simp only [List.mem_cons, List.not_mem_nil, or_false]
    rintro x (rfl | rfl | rfl | rfl)
    · unfold tryMergeTable
      split
      · exact parallel_bind (hsteady.rowMergeTable _ _ _ _) fun _ => parallel_pure _
      · exact parallel_pure _
    · unfold tryMergeDocument
      split
      · exact parallel_bind (hsteady.mergeDocumentRoots _ _ _ _) fun _ => parallel_pure _
      · exact parallel_pure _
    · exact parallel_bind (hsteady.vectorEntryMerge _ _ _ _ _) fun _ => parallel_pure _
    · exact hsteady.searchCollectionMerge _ _ _ _ _ _
  · cases r <;> exact parallel_pure _

/-! ## Steps -/

section Steps

variable (env : Env hash) (ns : WorkspaceId)

/-- The trees of the patches that apply without a conflict. -/
def stepTrees : List (ReplayPatch D) → WorkTree D → DirSet → Heap hash → List (WorkTree D × DirSet)
  | [], _, _, _ => []
  | p :: ps, files, dirs, h =>
    match exec (resolveThreeWay env ns p.base files p.theirs false) h with
    | (.ok (merged, []), h') =>
      (merged, dirs.union p.theirsDirs) :: stepTrees ps merged (dirs.union p.theirsDirs) h'
    | _ => []

/-- Whether the merges of the patches are all clean; an error if one of them fails. -/
def mergesClean : List (ReplayPatch D) → WorkTree D → Heap hash → Result Bool
  | [], _, _ => .ok true
  | p :: ps, files, h =>
    match exec (resolveThreeWay env ns p.base files p.theirs false) h with
    | (.ok (merged, []), h') => mergesClean ps merged h'
    | (.ok (_, _ :: _), _) => .ok false
    | (.error e, _) => .error e

def AllBuildable (trees : List (WorkTree D × DirSet)) : Prop :=
  ∀ t ∈ trees, Buildable env.isBoundary t.1 t.2

/-- A tip is a commit of a tree. -/
def CommitOf (t : WorkTree D × DirSet) (tip : Option D) (s : ContentStore hash) : Prop :=
  ∃ d c n, tip = some d ∧ getCommit s d = .ok c ∧ Represents env.isBoundary t.1 t.2 s n [] c.tree

/-- How real steps follow dry ones: they end alike, with a commit of the last tree. -/
def Follows (last : Option (WorkTree D × DirSet)) (dry : Result (List Path ⊕ Option D))
    (real : Result (List Path ⊕ Option D) × Heap hash) : Prop :=
  match dry with
  | .error _ => ∃ e, real.1 = .error e
  | .ok (.inl paths) => real.1 = .ok (.inl paths)
  | .ok (.inr _) => ∃ tip, real.1 = .ok (.inr tip) ∧ ∀ t ∈ last, CommitOf env t tip real.2.store

variable {env ns}

omit [ToString D] in
theorem mergesClean_eq_ok (timestampMs : UInt64) (patches : List (ReplayPatch D)) (files : WorkTree D)
    (dirs : DirSet) (tip : Option D) (h : Heap hash) (clean : Bool) :
    mergesClean env ns patches files h = .ok clean ↔ ∃ last,
      (exec (replaySteps env ns timestampMs true patches files dirs tip) h).1 = .ok last ∧
        last.isRight = clean := by
  induction patches generalizing files dirs h with
  | nil => exact ⟨fun h => ⟨.inr tip, rfl, Except.ok.inj h⟩, fun ⟨_, h, hc⟩ => by cases h; rw [← hc]; rfl⟩
  | cons p ps ih =>
    rcases hex : exec (resolveThreeWay env ns p.base files p.theirs false) h with
      ⟨e | ⟨merged, _ | ⟨path, paths⟩⟩, h'⟩
    · simp [mergesClean, replaySteps, hex, exec_bind_of_error hex]
    · simp only [mergesClean, replaySteps, hex, exec_bind_of_ok hex]
      exact ih merged (dirs.union p.theirsDirs) h'
    · simp [mergesClean, replaySteps, hex, exec_bind_of_ok hex]

/-- **As long as the trees can be stored, the real steps follow the dry ones.** -/
theorem replaySteps_follows (hinj : Function.Injective hash) (hsteady : env.Steady)
    (timestampMs : UInt64) (patches : List (ReplayPatch D)) (files : WorkTree D) (dirs : DirSet)
    (tip tip' : Option D) (h1 h2 : Heap hash) (hgrown : h1.Grown h2)
    (prev : Option (WorkTree D × DirSet)) (hprev : ∀ t ∈ prev, CommitOf env t tip' h2.store)
    (hall : AllBuildable env (stepTrees env ns patches files dirs h1)) :
    Follows env ((stepTrees env ns patches files dirs h1).getLast?.or prev)
      (exec (replaySteps env ns timestampMs true patches files dirs tip) h1).1
      (exec (replaySteps env ns timestampMs false patches files dirs tip') h2) := by
  induction patches generalizing files dirs tip' h1 h2 prev with
  | nil => exact ⟨tip', rfl, hprev⟩
  | cons p ps ih =>
    have hpar := resolveThreeWay_parallel hsteady ns p.base files p.theirs false h1 h2 hgrown
    obtain ⟨⟨merged, unresolved⟩, h₁', h₂', hex1, hex2, hgrown'⟩ | ⟨⟨e, h₁', hex1⟩, e', h₂', hex2⟩ :=
      hpar
    · simp only [replaySteps, exec_bind_of_ok hex1, exec_bind_of_ok hex2]
      cases unresolved with
      | cons path paths => exact rfl
      | nil =>
        simp only [stepTrees, hex1, AllBuildable, List.forall_mem_cons] at hall
        obtain ⟨hb, hall⟩ := hall
        obtain ⟨h₂'', hgrown'', ⟨-, d, c, hcommit, hget, -, n, hrep⟩ | ⟨hnot, -⟩⟩ :=
          commitTree_spec env timestampMs hinj merged (dirs.union p.theirsDirs) tip' p.author p.message h₂'
        · simp only [stepTrees, hex1, ne_eq, not_true_eq_false, if_false, if_true,
            Bool.false_eq_true, exec_bind_of_ok hcommit]
          have hlast : ∀ ts : List (WorkTree D × DirSet),
              (_ :: ts).getLast?.or prev = ts.getLast?.or (some (merged, dirs.union p.theirsDirs)) :=
            fun ts => by rw [List.getLast?_cons]; cases ts.getLast? <;> rfl
          rw [hlast]
          refine ih merged (dirs.union p.theirsDirs) (some d) h₁' h₂'' (hgrown'.trans hgrown'') _
            ?_ hall
          rintro _ ⟨⟩
          exact ⟨d, c, n, rfl, hget, hrep⟩
        · exact absurd hb hnot
    · simp only [replaySteps, exec_bind_of_error hex1, exec_bind_of_error hex2]
      exact ⟨e', rfl⟩

/-- **If a tree cannot be stored, the real steps fail.** -/
theorem replaySteps_error (hinj : Function.Injective hash) (hsteady : env.Steady)
    (timestampMs : UInt64) (patches : List (ReplayPatch D)) (files : WorkTree D) (dirs : DirSet)
    (tip : Option D) (h1 h2 : Heap hash) (hgrown : h1.Grown h2)
    (hnot : ¬ AllBuildable env (stepTrees env ns patches files dirs h1)) :
    ∃ e, (exec (replaySteps env ns timestampMs false patches files dirs tip) h2).1 = .error e := by
  induction patches generalizing files dirs tip h1 h2 with
  | nil => exact absurd (by simp [stepTrees, AllBuildable]) hnot
  | cons p ps ih =>
    have hpar := resolveThreeWay_parallel hsteady ns p.base files p.theirs false h1 h2 hgrown
    obtain ⟨⟨merged, unresolved⟩, h₁', h₂', hex1, hex2, hgrown'⟩ | ⟨⟨e, h₁', hex1⟩, e', h₂', hex2⟩ :=
      hpar
    · cases unresolved with
      | cons path paths => simp [stepTrees, hex1, AllBuildable] at hnot
      | nil =>
        simp only [stepTrees, hex1, AllBuildable, List.forall_mem_cons] at hnot
        simp only [replaySteps, exec_bind_of_ok hex2, ne_eq, not_true_eq_false, if_false,
          Bool.false_eq_true]
        obtain ⟨h₂'', hgrown'', ⟨hb, d, c, hcommit, -⟩ | ⟨-, e, hcommit⟩⟩ :=
          commitTree_spec env timestampMs hinj merged (dirs.union p.theirsDirs) tip p.author p.message h₂'
        · rw [exec_bind_of_ok hcommit]
          exact ih _ _ (some d) h₁' h₂'' (hgrown'.trans hgrown'') fun hall => hnot ⟨hb, hall⟩
        · rw [exec_bind_of_error hcommit]
          exact ⟨e, rfl⟩
    · simp [stepTrees, hex1, AllBuildable] at hnot

omit [ToString D] in
theorem stepTrees_ne_nil {timestampMs : UInt64} {p : ReplayPatch D} {ps : List (ReplayPatch D)}
    {files : WorkTree D} {dirs : DirSet} {tip tip' : Option D} {h : Heap hash}
    (hdry : (exec (replaySteps env ns timestampMs true (p :: ps) files dirs tip) h).1 =
      .ok (.inr tip')) : stepTrees env ns (p :: ps) files dirs h ≠ [] := by
  obtain ⟨⟨merged, unresolved⟩, h', hex, hrest⟩ := exec_bind_eq_ok.mp (Prod.ext hdry rfl)
  cases unresolved with
  | cons path paths => exact absurd (congrArg Prod.fst hrest) (by simp)
  | nil => simp [stepTrees, hex]

end Steps

/-! ## Operations -/

/-- An operation that replays history. -/
inductive ReplayOp (D : Type) where
  | cherryPick (commits : List D)
  | revert (commits : List D) (author : String)
  | rebase (onto : Path)

namespace ReplayOp

variable (env : Env hash) (ns : WorkspaceId)

def run (op : ReplayOp D) (timestampMs : UInt64) (dryRun : Bool) :
    Update (Loom hash) (ReplayOutcome D) :=
  match op with
  | .cherryPick commits => Loom.cherryPick env ns commits timestampMs dryRun
  | .revert commits author => Loom.revert env ns commits author timestampMs dryRun
  | .rebase onto => Loom.rebase env ns onto timestampMs dryRun

def plan (op : ReplayOp D) (L : Loom hash) : Result (ReplayPlan D) :=
  match op with
  | .cherryPick commits => Loom.patchPlan env ns pickPatch commits L
  | .revert commits author => Loom.patchPlan env ns (revertPatch · author) commits L
  | .rebase onto => Loom.rebasePlan env ns onto L

variable {env ns}

theorem exec_run (op : ReplayOp D) (timestampMs : UInt64) (dryRun : Bool) (L : Loom hash) :
    exec (op.run env ns timestampMs dryRun) L = exec (liftM (op.plan env ns L) >>= fun plan =>
      Loom.replay env ns plan timestampMs dryRun) L := by
  cases op with
  | cherryPick commits => rw [run, Loom.cherryPick, exec_get_bind, plan]
  | revert commits author => rw [run, Loom.revert, exec_get_bind, plan]
  | rebase onto => rw [run, Loom.rebase, exec_get_bind, plan]

theorem exists_tip_of_plan {op : ReplayOp D} {L : Loom hash} {plan : ReplayPlan D}
    (h : op.plan env ns L = .ok plan) :
    ∃ head tip, L.registry.headBranch ns = .ok head ∧ L.registry.branchTip ns head = .ok tip ∧
      ∀ head' tip' onto, plan = .fastForward head' tip' onto → head' = head ∧ some tip' = tip := by
  cases op with
  | cherryPick commits =>
    obtain ⟨tip, patches, htip, -, rfl⟩ := Loom.patchPlan_eq_ok h
    obtain ⟨head, hhead, htip⟩ := of_bind htip
    exact ⟨head, tip, hhead, htip, by simp⟩
  | revert commits author =>
    rw [ReplayOp.plan] at h
    obtain ⟨tip, patches, htip, -, rfl⟩ := Loom.patchPlan_eq_ok h
    obtain ⟨head, hhead, htip⟩ := of_bind htip
    exact ⟨head, tip, hhead, htip, by simp⟩
  | rebase onto =>
    obtain ⟨d, head, tip, -, hhead, htip, hcases⟩ := Loom.rebasePlan_eq_ok h
    refine ⟨head, some tip, hhead, htip, ?_⟩
    obtain ⟨-, rfl⟩ | ⟨-, -, rfl⟩ | ⟨-, -, patches, -, rfl⟩ := hcases
    · simp
    · rintro _ _ _ ⟨⟩
      exact ⟨rfl, rfl⟩
    · simp

end ReplayOp

/-! ## Agreement -/

namespace Agrees

omit [LinearOrder D] [ToString D]

theorem of_errors (e e' : LoomError) : Agrees (D := D) (.error e) (.error e') := by
  constructor <;> simp

theorem of_clean (d : D) : Agrees (.ok .clean) (.ok (.replayed d)) := by constructor <;> simp

theorem of_conflicts (paths : List Path) :
    Agrees (D := D) (.ok (.conflicts paths)) (.ok (.conflicts paths)) := by constructor <;> simp

theorem of_empty : Agrees (D := D) (.ok .empty) (.ok .empty) := by constructor <;> simp

theorem not_clean (e : LoomError) : ¬ Agrees (D := D) (.ok .clean) (.error e) := fun h => by
  simpa using h.clean

theorem not_conflicts (paths : List Path) (e : LoomError) :
    ¬ Agrees (D := D) (.ok (.conflicts paths)) (.error e) := fun h => by
  simpa using h.conflicts paths

end Agrees

namespace Loom

variable (env : Env hash) (ns : WorkspaceId) (timestampMs : UInt64) (L : Loom hash)

/-- The real run of a plan may move the branch. -/
def UpdateAllowed : ReplayPlan D → Prop
  | .empty => True
  | .fastForward head tip onto =>
    authorizeBranchUpdate env L ns (branchRef head) (some tip) onto = .ok ()
  | .steps start patches => ∀ head origTip running d L',
    L.registry.headBranch ns = .ok head → L.registry.branchTip ns head = .ok origTip →
    startTree L.heap.store start = .ok running →
    exec (onHeap (replaySteps env ns timestampMs false patches running.1 running.2 start)) L =
      (.ok (.inr (some d)), L') →
    authorizeBranchUpdate env L' ns (branchRef head) origTip d = .ok ()

/-- Unless a merge fails, all merged trees can be stored, and the last one can be read back if no
merge conflicts. -/
def Replayable : ReplayPlan D → Prop
  | .empty => True
  | .fastForward _ _ onto => ∃ r, flattenCommit L.heap.store onto = .ok r
  | .steps start patches => ∀ running clean, startTree L.heap.store start = .ok running →
    mergesClean env ns patches running.1 L.heap = .ok clean →
    AllBuildable env (stepTrees env ns patches running.1 running.2 L.heap) ∧
      (clean → ∀ t ∈ (stepTrees env ns patches running.1 running.2 L.heap).getLast?,
        Shallow env.isBoundary t.1 t.2)

variable {env ns timestampMs L}

theorem agrees_fastForward_iff (hread : env.authorize ns .read = .ok ()) {head : Path} {tip onto : D}
    (htip : L.registry.branchTip ns head = .ok (some tip))
    (hallow : UpdateAllowed env ns timestampMs L (.fastForward head tip onto)) :
    Agrees (exec (replay env ns (.fastForward head tip onto) timestampMs true) L).1
      (exec (replay env ns (.fastForward head tip onto) timestampMs false) L).1 ↔
        Replayable env ns L (.fastForward head tip onto) := by
  change Agrees (.ok .clean)
    (exec (advanceBranch env ns head (some tip) onto >>= fun _ => pure (.replayed onto)) L).1 ↔ _
  obtain ⟨hcan, L', hex⟩ | ⟨hcan, e, L', hex, -⟩ := advanceBranch_allowed hallow htip
  · rw [exec_bind_of_ok hex]
    exact ⟨fun _ => hcan.2, fun _ => .of_clean onto⟩
  · rw [exec_bind_of_error hex]
    exact ⟨fun h => absurd h (Agrees.not_clean e), fun h => absurd ⟨hread, h⟩ hcan⟩

section Steps

variable {head : Path} {origTip start : Option D} {patches : List (ReplayPatch D)}

theorem exec_replayOnto_error (hidle : L.mergeState.get ns = none) (hne : patches ≠ [])
    (hhead : L.registry.headBranch ns = .ok head)
    (htip : L.registry.branchTip ns head = .ok origTip) {e : LoomError}
    (hrun : startTree L.heap.store start = .error e) (dryRun : Bool) :
    exec (replayOnto env ns start patches timestampMs dryRun) L = (.error e, L) := by
  rw [replayOnto, exec_get_bind, if_neg (by simp [hidle]), if_neg (by simpa using hne),
    exec_lift_bind, hhead]
  simp only [exec_lift_bind, htip, hrun]

/-- What a dry run returns, from how its steps end. -/
def dryOutcome : List Path ⊕ Option D → ReplayOutcome D
  | .inl paths => .conflicts paths
  | .inr _ => .clean

theorem exec_replayOnto_dry (hne : patches ≠ []) (hhead : L.registry.headBranch ns = .ok head)
    (htip : L.registry.branchTip ns head = .ok origTip) {running : WorkTree D × DirSet}
    (hrun : startTree L.heap.store start = .ok running) :
    let steps := exec (replaySteps env ns timestampMs true patches running.1 running.2 start) L.heap
    exec (replayOnto env ns start patches timestampMs true) L =
      (steps.1.map dryOutcome, { L with heap := steps.2 }) := by
  intro steps
  rw [exec_replayOnto (by simp) hne hhead htip hrun]
  have hsteps : exec (onHeap
      (replaySteps env ns timestampMs true patches running.1 running.2 start)) L =
      (steps.1, { L with heap := steps.2 }) := exec_onHeap _ L
  rcases hout : steps.1 with e | last
  · rw [exec_bind_of_error (hsteps.trans (by rw [hout]))]
    rfl
  · rw [exec_bind_of_ok (hsteps.trans (by rw [hout]))]
    cases last <;> rfl

variable (timestampMs) in
theorem exec_replayOnto_real (hidle : L.mergeState.get ns = none) (hne : patches ≠ [])
    (hhead : L.registry.headBranch ns = .ok head)
    (htip : L.registry.branchTip ns head = .ok origTip) {running : WorkTree D × DirSet}
    (hrun : startTree L.heap.store start = .ok running) :
    let steps := exec (replaySteps env ns timestampMs false patches running.1 running.2 start) L.heap
    (∀ e, steps.1 = .error e →
      (exec (replayOnto env ns start patches timestampMs false) L).1 = .error e) ∧
    ∀ last, steps.1 = .ok last → exec (replayOnto env ns start patches timestampMs false) L =
      exec (finishReplay env ns head origTip false last) { L with heap := steps.2 } := by
  intro steps
  rw [exec_replayOnto (fun _ => hidle) hne hhead htip hrun]
  have hsteps : exec (onHeap
      (replaySteps env ns timestampMs false patches running.1 running.2 start)) L =
      (steps.1, { L with heap := steps.2 }) := exec_onHeap _ L
  refine ⟨fun e he => ?_, fun last hlast => ?_⟩
  · rw [exec_bind_of_error (hsteps.trans (by rw [he]))]
  · rw [exec_bind_of_ok (hsteps.trans (by rw [hlast]))]

/-- **A dry run and a real run of patches agree** exactly if the trees can be stored. -/
theorem agrees_steps_iff (hinj : Function.Injective hash) (hsteady : env.Steady)
    (hread : env.authorize ns .read = .ok ()) (hidle : L.mergeState.get ns = none)
    (hhead : L.registry.headBranch ns = .ok head)
    (htip : L.registry.branchTip ns head = .ok origTip)
    (hallow : UpdateAllowed env ns timestampMs L (.steps start patches)) :
    Agrees (exec (replay env ns (.steps start patches) timestampMs true) L).1
      (exec (replay env ns (.steps start patches) timestampMs false) L).1 ↔
        Replayable env ns L (.steps start patches) := by
  simp only [replay]
  rcases patches with _ | ⟨p, ps⟩
  · have hempty : ∀ dryRun,
        exec (replayOnto env ns start [] timestampMs dryRun) L = (.ok .empty, L) := fun dryRun => by
      rw [replayOnto, exec_get_bind, if_neg (by simp [hidle])]
      rfl
    rw [hempty, hempty]
    exact ⟨fun _ _ _ _ _ => ⟨by simp [stepTrees, AllBuildable], by simp [stepTrees]⟩,
      fun _ => .of_empty⟩
  have hne : p :: ps ≠ [] := List.cons_ne_nil p ps
  rcases hrun : startTree L.heap.store start with e | running
  · rw [exec_replayOnto_error hidle hne hhead htip hrun,
      exec_replayOnto_error hidle hne hhead htip hrun]
    exact ⟨fun _ running last h => by simp [hrun] at h, fun _ => .of_errors e e⟩
  rw [exec_replayOnto_dry hne hhead htip hrun]
  obtain ⟨hfail, hfinish⟩ := exec_replayOnto_real timestampMs hidle hne hhead htip hrun
  -- the merges of the plan are those of its dry run
  have hcond : ∀ r, (exec (replaySteps env ns timestampMs true (p :: ps) running.1 running.2 start)
      L.heap).1 = r → (Replayable env ns L (.steps start (p :: ps)) ↔ ∀ last, r = .ok last →
        AllBuildable env (stepTrees env ns (p :: ps) running.1 running.2 L.heap) ∧
        (last.isRight → ∀ t ∈ (stepTrees env ns (p :: ps) running.1 running.2 L.heap).getLast?,
          Shallow env.isBoundary t.1 t.2)) := by
    rintro r rfl
    constructor
    · intro h last hlast
      exact h running last.isRight hrun ((mergesClean_eq_ok ..).mpr ⟨last, hlast, rfl⟩)
    · intro h running' clean hrun' hclean
      cases hrun.symm.trans hrun'
      obtain ⟨last, hlast, rfl⟩ := (mergesClean_eq_ok timestampMs _ _ running.2 start _ _).mp hclean
      exact h last hlast
  have hgrown : L.heap.Grown L.heap := ⟨le_rfl, rfl⟩
  by_cases hall : AllBuildable env (stepTrees env ns (p :: ps) running.1 running.2 L.heap)
  swap
  · obtain ⟨e, he⟩ := replaySteps_error hinj hsteady timestampMs (p :: ps) running.1 running.2 start
      L.heap L.heap hgrown hall
    rw [hfail e he]
    rcases hdry : (exec (replaySteps env ns timestampMs true (p :: ps) running.1 running.2 start)
      L.heap).1 with e' | paths | tip
    · exact ⟨fun _ => (hcond _ hdry).mpr (by simp), fun _ => .of_errors e' e⟩
    · exact ⟨fun h => absurd h (Agrees.not_conflicts paths e),
        fun h => absurd ((hcond _ hdry).mp h _ rfl).1 hall⟩
    · exact ⟨fun h => absurd h (Agrees.not_clean e),
        fun h => absurd ((hcond _ hdry).mp h _ rfl).1 hall⟩
  have hfollows := replaySteps_follows hinj hsteady timestampMs (p :: ps) running.1 running.2 start
    start L.heap L.heap hgrown none (by simp) hall
  rcases hdry : (exec (replaySteps env ns timestampMs true (p :: ps) running.1 running.2 start)
    L.heap).1 with e' | paths | tip
  · rw [hdry] at hfollows
    obtain ⟨e, he⟩ := hfollows
    rw [hfail e he]
    exact ⟨fun _ => (hcond _ hdry).mpr (by simp), fun _ => .of_errors e' e⟩
  · rw [hdry] at hfollows
    rw [hfinish _ hfollows]
    refine ⟨fun _ => (hcond _ hdry).mpr ?_, fun _ => .of_conflicts paths⟩
    rintro _ ⟨⟩
    exact ⟨hall, by simp⟩
  · rw [hdry] at hfollows
    obtain ⟨tip', hreal, hlast⟩ := hfollows
    obtain ⟨t, ht⟩ := Option.ne_none_iff_exists'.mp
      (mt List.getLast?_eq_none_iff.mp (stepTrees_ne_nil hdry))
    obtain ⟨d, c, n, rfl, hget, hrep⟩ := hlast t (by rw [ht]; rfl)
    have hshallow := flattenCommit_iff_shallow hget hrep
    rw [hfinish _ hreal, hcond _ hdry]
    have hupd := hallow head origTip running d { L with heap := (exec (replaySteps env ns timestampMs
      false (p :: ps) running.1 running.2 start) L.heap).2 } hhead htip hrun (Prod.ext hreal rfl)
    change Agrees (.ok .clean)
      (exec (advanceBranch env ns head origTip d >>= fun _ => pure (.replayed d)) _).1 ↔ _
    obtain ⟨hcan, L', hex⟩ | ⟨hcan, e, L', hex, -⟩ := advanceBranch_allowed hupd htip
    · rw [exec_bind_of_ok hex]
      refine ⟨fun _ => ?_, fun _ => .of_clean d⟩
      rintro _ ⟨⟩
      refine ⟨hall, fun _ t' ht' => ?_⟩
      cases ht.symm.trans ht'
      exact hshallow.mp hcan.2
    · rw [exec_bind_of_error hex]
      refine ⟨fun h => absurd h (Agrees.not_clean e), fun h => absurd ⟨hread, hshallow.mpr ?_⟩ hcan⟩
      exact (h _ rfl).2 rfl t (by rw [ht]; rfl)

end Steps

theorem unchanged_replay_dry {op : ReplayOp D} {plan : ReplayPlan D}
    (hplan : op.plan env ns L = .ok plan) (hidle : L.mergeState.get ns = none)
    (timestampMs : UInt64) : Unchanged ns L (exec (replay env ns plan timestampMs true) L).2 := by
  obtain ⟨head, tip, hhead, htip, -⟩ := ReplayOp.exists_tip_of_plan hplan
  cases plan with
  | empty => exact .of_heap L.heap
  | fastForward head tip onto => exact .of_heap L.heap
  | steps start patches =>
    rw [replay]
    by_cases hne : patches = []
    · subst hne
      rw [replayOnto, exec_get_bind, if_neg (by simp)]
      exact .of_heap L.heap
    rcases hrun : startTree L.heap.store start with e | running
    · rw [exec_replayOnto_error hidle hne hhead htip hrun]
      exact .of_heap L.heap
    · rw [exec_replayOnto_dry hne hhead htip hrun]
      exact .of_heap _

def apartHistory : Update (ContentStore freeHash) (List (String × FreeDigest)) := do
  let base ← Sample.storeCommit [] [] []
  let ours ← Sample.storeCommit [("a", Sample.file 1)] [] [base]
  let theirs ← Sample.storeCommit [("d/b", Sample.file 2)] ["d"] [base]
  return [("main", ours), ("dev", theirs)]

def apart : Loom freeHash := Sample.loom apartHistory

def apartTip (branch : String) : FreeDigest := (apart.registry.tip Sample.ns branch.toList).getD []

def apartPatches : List (ReplayPatch FreeDigest) :=
  match rebasePlan Sample.plainEnv Sample.ns "dev".toList apart with
  | .ok (.steps _ patches) => patches
  | _ => []

def apartTree : WorkTree FreeDigest × DirSet :=
  (startTree apart.heap.store (some (apartTip "dev"))).toOption.getD (SortedMap.empty, SortedSet.empty)

def apartSteps : Result (List Path ⊕ Option FreeDigest) × Loom freeHash :=
  exec (onHeap (replaySteps Sample.plainEnv Sample.ns 2 false apartPatches apartTree.1 apartTree.2
    (some (apartTip "dev")))) apart

theorem updateAllowed_apart : UpdateAllowed Sample.plainEnv Sample.ns 2 apart
    (.steps (some (apartTip "dev")) apartPatches) := by
  have hhead : apart.registry.headBranch Sample.ns = .ok "main".toList := by decide +kernel
  have htip : apart.registry.branchTip Sample.ns "main".toList = .ok (some (apartTip "main")) := by
    decide +kernel
  have hstart : startTree apart.heap.store (some (apartTip "dev")) = .ok apartTree := by decide +kernel
  have hlast : ∃ d, apartSteps.1 = .ok (.inr (some d)) ∧ authorizeBranchUpdate Sample.plainEnv
      apartSteps.2 Sample.ns (branchRef "main".toList) (some (apartTip "main")) d = .ok () :=
    ⟨(apartSteps.1.toOption.bind Sum.getRight?).join.getD [], by decide +kernel⟩
  obtain ⟨d, hd, hauth⟩ := hlast
  rintro head origTip running d' L' hhead' htip' hstart' hex
  obtain rfl := Except.ok.inj (hhead.symm.trans hhead')
  obtain rfl := Except.ok.inj (htip.symm.trans htip')
  obtain rfl := Except.ok.inj (hstart.symm.trans hstart')
  have hsteps : apartSteps = (.ok (.inr (some d')), L') := hex
  rw [hsteps] at hd hauth
  obtain rfl : d' = d := Option.some.inj (Sum.inr.inj (Except.ok.inj hd))
  exact hauth

end Loom

end UldrenLoom.Vcs
