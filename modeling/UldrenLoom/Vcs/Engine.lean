import UldrenLoom.Lib.Worklist
import UldrenLoom.Vcs.Loom

/-!
# History and refs
-/

namespace UldrenLoom.Vcs

open ByteString Fallible Effect List

variable {D : Type} [LinearOrder D] [ToString D] {hash : Stored D → D}

/-! ## Ancestors -/

/-- The commits a commit descends from, itself included. A search through the store ends after as
many commits as there are objects. -/
def ancestors (s : ContentStore hash) (start : D) : Result (SortedSet D) := do
  let seen ← Worklist.run (fun d => do return ((← getCommit s d).parents, []))
    (.corrupt "commits descend from each other") s.size [] [start]
  return SortedSet.ofList seen

def isAncestor (s : ContentStore hash) (a b : D) : Result Bool :=
  return a ∈ (← ancestors s b)

def Parent (s : ContentStore hash) (d p : D) : Prop := ∃ c, getCommit s d = .ok c ∧ p ∈ c.parents

/-- Commit `d` descends from commit `a`, in any number of steps. -/
def Descends (s : ContentStore hash) : D → D → Prop := Relation.ReflTransGen (Parent s)

variable {s : ContentStore hash}

/-- **The ancestors of a commit** are all commits it descends from. -/
theorem ancestors_spec {start : D} {A : SortedSet D} (h : ancestors s start = .ok A) :
    (∀ d, d ∈ A ↔ Descends s start d) ∧ ∀ d, Descends s start d → ∃ c, getCommit s d = .ok c := by
  obtain ⟨seen, hrun, hA⟩ := of_bind h
  cases hA
  -- everything met is an ancestor, and the parents of what was expanded are met
  let P (seen queue : List D) : Prop :=
    (∀ d ∈ seen ++ queue, Descends s start d) ∧ start ∈ seen ++ queue ∧
      ∀ d ∈ seen, ∃ c, getCommit s d = .ok c ∧ ∀ p ∈ c.parents, p ∈ seen ++ queue
  have hP : P seen [] := by
    refine Worklist.run_invariant (P := P) ?_ ?_ ?_ hrun
    · rintro seen d q hd ⟨h1, h2, h3⟩
      have hmem : ∀ x, x ∈ seen ++ d :: q ↔ x ∈ seen ++ q := by
        intro x
        simp only [mem_append, mem_cons]
        constructor
        · rintro (h | rfl | h) <;> tauto
        · tauto
      exact ⟨fun x hx => h1 x ((hmem x).mpr hx), (hmem _).mp h2,
        fun x hx => (h3 x hx).imp fun c hc => ⟨hc.1, fun p hp => (hmem p).mp (hc.2 p hp)⟩⟩
    · rintro seen d q r hd ⟨h1, h2, h3⟩ hr
      obtain ⟨c, hc, hr'⟩ := of_bind hr
      cases hr'
      have hd' : Descends s start d := h1 d (by simp)
      refine ⟨?_, ?_, ?_⟩
      · intro x hx
        simp only [nil_append, cons_append, mem_cons, mem_append] at hx
        rcases hx with rfl | hx | hx | hx
        · exact hd'
        · exact h1 x (by simp [hx])
        · exact h1 x (by simp [hx])
        · exact hd'.tail ⟨c, hc, hx⟩
      · simp only [mem_append, mem_cons, nil_append] at h2 ⊢
        tauto
      · intro x hx
        rcases mem_cons.mp hx with rfl | hx
        · exact ⟨c, hc, fun p hp => by simp [hp]⟩
        · obtain ⟨c', hc', hp'⟩ := h3 x hx
          refine ⟨c', hc', fun p hp => ?_⟩
          have := hp' p hp
          simp only [mem_append, mem_cons, nil_append] at this ⊢
          tauto
    · exact ⟨by simp [Descends, Relation.ReflTransGen.refl], by simp, by simp⟩
  obtain ⟨h1, h2, h3⟩ := hP
  simp only [append_nil] at h1 h2 h3
  have hseen : ∀ d, Descends s start d → d ∈ seen := by
    intro d hd
    induction hd with
    | refl => exact h2
    | tail _ hp ih =>
      obtain ⟨c, hc, hp⟩ := hp
      obtain ⟨c', hc', hp'⟩ := h3 _ ih
      cases hc.symm.trans hc'
      exact hp' _ hp
  exact ⟨fun d => ⟨fun hd => h1 d (by simpa using hd), fun hd => by simpa using hseen d hd⟩,
    fun d hd => (h3 d (hseen d hd)).imp fun _ hc => hc.1⟩

variable {d : D} {c : Commit D}

theorem mem_keys_of_getCommit (h : getCommit s d = .ok c) : d ∈ s.objects.keys :=
  mem_keys_of_getObject (getCommit_eq_ok.mp h)

/-- **The ancestors can be read** if all of them are commits of the store. -/
theorem ancestors_total (s : ContentStore hash) (start : D)
    (h : ∀ d, Descends s start d → ∃ c, getCommit s d = .ok c) : ∃ A, ancestors s start = .ok A := by
  have hrun : ∃ seen, Worklist.run (fun d => do return ((← getCommit s d).parents, []))
      (.corrupt "commits descend from each other") s.size [] [start] = .ok seen := by
    refine Worklist.run_total (P := fun _ queue => ∀ d ∈ queue, Descends s start d)
      s.objects.keys ?_ ?_ ?_ ?_
    · exact fun _ _ _ _ hq x hx => hq x (mem_cons_of_mem _ hx)
    · intro seen d q _ hq
      have hd := hq d (by simp)
      obtain ⟨c, hc⟩ := h d hd
      refine ⟨mem_keys_of_getCommit hc, (c.parents, []), by rw [hc]; rfl, ?_⟩
      exact forall_mem_append.mpr
        ⟨fun x hx => hq x (mem_cons_of_mem _ hx), fun x hx => hd.tail ⟨c, hc, hx⟩⟩
    · exact forall_mem_singleton.mpr Relation.ReflTransGen.refl
    · exact length_filter_le _ _
  obtain ⟨seen, hseen⟩ := hrun
  exact ⟨SortedSet.ofList seen, bind_eq_ok.mpr ⟨seen, hseen, rfl⟩⟩

theorem getCommit_mono {t : ContentStore hash} (h : s ≤ t) (hc : getCommit s d = .ok c) :
    getCommit t d = .ok c :=
  getCommit_eq_ok.mpr (getObject_mono h (getCommit_eq_ok.mp hc))

theorem ancestors_mono {t : ContentStore hash} (h : s ≤ t) {A : SortedSet D}
    (hA : ancestors s d = .ok A) : ancestors t d = .ok A := by
  obtain ⟨hmem, hcommit⟩ := ancestors_spec hA
  have hiff : ∀ x, Descends t d x ↔ Descends s d x := by
    intro x
    constructor
    · intro hx
      induction hx with
      | refl => exact Relation.ReflTransGen.refl
      | tail _ hp ih =>
        obtain ⟨c, hc, hp⟩ := hp
        obtain ⟨c', hc'⟩ := hcommit _ ih
        obtain rfl := Except.ok.inj (hc.symm.trans (getCommit_mono h hc'))
        exact ih.tail ⟨c, hc', hp⟩
    · intro hx
      induction hx with
      | refl => exact Relation.ReflTransGen.refl
      | tail _ hp ih =>
        obtain ⟨c, hc, hp⟩ := hp
        exact ih.tail ⟨c, getCommit_mono h hc, hp⟩
  obtain ⟨A', hA'⟩ := ancestors_total t d fun x hx =>
    (hcommit x ((hiff x).mp hx)).imp fun _ => getCommit_mono h
  rw [hA']
  congr 1
  exact SortedSet.ext_mem fun x => by rw [(ancestors_spec hA').1, hmem, hiff]

theorem ancestors_of_parents (hc : getCommit s d = .ok c)
    (hp : ∀ p ∈ c.parents, ∃ A, ancestors s p = .ok A) :
    ∃ A, ancestors s d = .ok A ∧ d ∈ A ∧ ∀ p ∈ c.parents, p ∈ A := by
  have hstep : ∀ x, Descends s d x → x = d ∨ ∃ p ∈ c.parents, Descends s p x := by
    intro x hx
    rcases hx.cases_head with rfl | ⟨p, ⟨c', hc', hp'⟩, hx⟩
    · exact .inl rfl
    · cases hc.symm.trans hc'
      exact .inr ⟨p, hp', hx⟩
  obtain ⟨A, hA⟩ := ancestors_total s d (by
    intro x hx
    rcases hstep x hx with rfl | ⟨p, hp', hx⟩
    · exact ⟨c, hc⟩
    · obtain ⟨A, hA⟩ := hp p hp'
      exact (ancestors_spec hA).2 x hx)
  have hmem := (ancestors_spec hA).1
  exact ⟨A, hA, (hmem d).mpr .refl, fun p hp => (hmem p).mpr (.single ⟨c, hc, hp⟩)⟩

theorem isAncestor_eq_ok {a b : D} {r : Bool} :
    isAncestor s a b = .ok r ↔ ∃ A, ancestors s b = .ok A ∧ decide (a ∈ A) = r := by
  rw [isAncestor, bind_eq_ok]
  simp only [pure, Except.pure, Except.ok.injEq]

/-! ## Moving refs -/

namespace Loom

variable (env : Env hash) (L : Loom hash) (ns : WorkspaceId)

def protectedRefDenied (ref : Path) : LoomError :=
  ⟨.permissionDenied, "protected ref " ++ ref.quote ++ " policy denied the ref update"⟩

def evaluateProtectedRefUpdate (ref : Path) (old new : Option D) : Result Unit :=
  match L.protectedRefs.get (toLex (ns, ref)) with
  | none => .ok ()
  | some policy => do
    if new = none ∧ (policy.fastForwardOnly ∨ policy.retentionLock ∨ policy.governanceLock) then
      throw (protectedRefDenied ref)
    if policy.fastForwardOnly then
      if let (some old, some new) := (old, new) then
        if old ≠ new then
          unless ← isAncestor L.heap.store old new do
            throw (protectedRefDenied ref)
    if policy.signedCommitsRequired ∨ policy.signedRefAdvanceRequired ∨
        policy.requiredReviewCount > 0 then
      throw (protectedRefDenied ref)

/-- Whether a branch may move; rewriting history needs the right to. -/
def authorizeBranchUpdate (ref : Path) (old : Option D) (new : D) : Result Unit := do
  evaluateProtectedRefUpdate L ns ref old (some new)
  if let some old := old then
    unless ← isAncestor L.heap.store old new do
      env.authorize ns .admin

def branchRef (branch : Path) : Path := "branch/".toList ++ branch

def updateBranch (branch : Path) (expected : Option D) (new : D) : Update (Loom hash) Unit := do
  let L ← get
  let registry ← liftM (L.registry.updateBranch ns branch expected new)
  modify fun L => { L with registry := registry }

/-- Make a commit the working tree and the index. -/
def checkoutCommit (commit : D) : Update (Loom hash) Unit := do
  liftM (env.authorize ns .read)
  let L ← get
  let (files, dirs) ← liftM (flattenCommit L.heap.store commit)
  modify fun L => { L with
    index := L.index.insert ns files
    work := L.work.insert ns files
    dirs := L.dirs.insert ns dirs }

/-- The error of a revision that is none of a kind. -/
def unresolved (rev : Path) (kind : String) : Result D :=
  .error (.notFound ("revision " ++ rev.quote ++ " did not resolve to " ++ kind))

def resolveTagRev (tag rev : Path) : Result D := do
  match ← L.registry.tagTarget ns tag with
  | none => unresolved rev "a tag"
  | some target =>
    match ← getObject L.heap.store target with
    | .commit _ => .ok target
    | .tag t =>
      if t.targetType = .commit then .ok t.target
      else .error (.invalid ("revision " ++ rev.quote ++ " resolves to a Tag, not a commit"))
    | o => .error (.invalid
        ("revision " ++ rev.quote ++ " resolves to a " ++ o.objectType.text ++ ", not a commit"))

def resolveRevDigest (rev : Path) : Result D := do
  if rev = "HEAD".toList then
    match ← L.registry.branchTip ns (← L.registry.headBranch ns) with
    | some tip => .ok tip
    | none => .error (.notFound ("revision " ++ rev.quote ++ ": HEAD is unborn"))
  else if let some value := rev.dropPrefix? "commit:".toList then
    match env.parseRevDigest value with
    | some d => .ok d
    | none => unresolved rev "a commit digest"
  else if let some branch := rev.dropPrefix? "branch:".toList then
    match ← L.registry.branchTip ns branch with
    | some tip => .ok tip
    | none => unresolved rev "a branch"
  else if let some tag := rev.dropPrefix? "tag:".toList then
    resolveTagRev L ns tag rev
  else if let some d := env.parseRevDigest rev then .ok d
  else
    match ← L.registry.branchTip ns rev with
    | some tip => .ok tip
    | none => unresolved rev "HEAD, a digest, a branch, or a tag"

def resolveRev (rev : Path) : Result D := do
  let d ← resolveRevDigest env L ns rev
  match ← getObject L.heap.store d with
  | .commit _ => .ok d
  | o => .error (.invalid
      ("revision " ++ rev.quote ++ " resolves to a " ++ o.objectType.text ++ ", not a commit"))

variable {env L ns}

/-- **What a checkout does**: it fails without a change, or replaces the tree and the index. -/
theorem exec_checkoutCommit (commit : D) : exec (checkoutCommit env ns commit) L =
    match env.authorize ns .read, flattenCommit L.heap.store commit with
    | .error e, _ => (.error e, L)
    | .ok (), .error e => (.error e, L)
    | .ok (), .ok (files, dirs) => (.ok (),
        { L with
          index := L.index.insert ns files
          work := L.work.insert ns files
          dirs := L.dirs.insert ns dirs }) := by
  rw [checkoutCommit, exec_lift_bind]
  rcases env.authorize ns .read with e | ⟨⟩
  · rfl
  · simp only [exec_get_bind, exec_lift_bind]
    rcases flattenCommit L.heap.store commit with e | ⟨files, dirs⟩ <;> rfl

theorem exec_updateBranch (branch : Path) (expected : Option D) (new : D) :
    exec (updateBranch ns branch expected new) L =
      match L.registry.updateBranch ns branch expected new with
      | .error e => (.error e, L)
      | .ok registry => (.ok (), { L with registry := registry }) := by
  rw [updateBranch, exec_get_bind, exec_lift_bind]
  cases L.registry.updateBranch ns branch expected new <;> rfl

/-- What the policy of a ref demands of every update. -/
def Unsigned (L : Loom hash) (ns : WorkspaceId) (ref : Path) : Prop :=
  ∀ policy, L.protectedRefs.get (toLex (ns, ref)) = some policy →
    policy.signedCommitsRequired = false ∧ policy.signedRefAdvanceRequired = false ∧
      policy.requiredReviewCount = 0

variable (env ns) in
/-- **A branch may move to a descendant of its tip** exactly if no signature or review is due. -/
theorem authorizeBranchUpdate_descendant (ref : Path) {old new : D}
    (h : isAncestor L.heap.store old new = .ok true) :
    authorizeBranchUpdate env L ns ref (some old) new = .ok () ↔ Unsigned L ns ref := by
  have hev : evaluateProtectedRefUpdate L ns ref (some old) (some new) = .ok () ↔
      Unsigned L ns ref := by
    unfold evaluateProtectedRefUpdate Unsigned
    cases L.protectedRefs.get (toLex (ns, ref)) with
    | none => simp
    | some policy =>
      obtain ⟨ff, sc, sr, rc, rl, gl⟩ := policy
      have hrc : 0 < rc ↔ ¬ rc = 0 := by
        rw [UInt32.lt_iff_toNat_lt, ← UInt32.toNat_inj]
        simp [Nat.pos_iff_ne_zero]
      cases ff <;> cases sc <;> cases sr <;> by_cases hne : old = new <;>
        by_cases hr : rc = 0 <;>
        simp [h, hne, hr, hrc, protectedRefDenied, bind, Except.bind, throw, throwThe,
          MonadExceptOf.throw, pure, Except.pure]
  unfold authorizeBranchUpdate
  rw [bind_eq_ok]
  simp [h, hev, pure, Except.pure]

end Loom

/-! ## Content -/

section Content

variable (env : Env hash)

/-- Content up to this size is one blob. -/
def chunkThreshold : ℕ := 512 * 1024

def Heap.onStore {α : Type} (x : Update (ContentStore hash) α) : Update (Heap hash) α :=
  zoom Heap.store (fun h s => { h with store := s }) x

/-- Store file content: one blob, or a list of chunks. -/
def storeContent (bytes : Bytes) : Update (Heap hash) D := do
  let obj ←
    if bytes.length ≤ chunkThreshold then Heap.onStore (putObject (.blob bytes))
    else do
      let entries ← (env.chunk bytes).mapM fun piece => do
        let target ← Heap.onStore (putObject (.blob piece))
        return (⟨target, UInt64.ofNat piece.length⟩ : ChunkRef D)
      Heap.onStore (putObject (.chunkList (UInt64.ofNat bytes.length) entries))
  modify fun h => { h with content := h.content.insert (env.contentAddress bytes) obj }
  return env.contentAddress bytes

def loadContent (h : Heap hash) (addr : D) : Result Bytes :=
  match h.content.get addr with
  | none => .error (.notFound ("content " ++ toString addr))
  | some obj => do
    match ← getObject h.store obj with
    | .blob bytes => .ok bytes
    | .chunkList _ entries =>
      concatMap (fun e => do
        match ← getObject h.store e.target with
        | .blob chunk => .ok chunk
        | o => .error (.corrupt
            ("chunk " ++ toString e.target ++ " is a " ++ o.objectType.text ++ ", not a Blob")))
        entries
    | o => .error (.corrupt ("expected a Blob or ChunkList, got " ++ o.objectType.text))

end Content

end UldrenLoom.Vcs
