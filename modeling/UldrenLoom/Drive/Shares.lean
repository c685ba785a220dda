import UldrenLoom.Drive.Model

/-!
# Shares and the access policy

Every share of a Drive is kept twice: in the share index of the Drive, and as a grant of the access
policy. The grant is for every request whose text starts with the text of the shared target.

* **`shares_exact_iff`**: after a run, having a right on a target is the same as having a share of it
  exactly if no share of another target has a text that the target's text starts with.
-/

namespace UldrenLoom.Drive

open Acl ByteString Fallible Vcs Machine List SortedMap Option

/-! ## The calls -/

def shareTargetKind : DriveShareTargetKind → String
  | .file => "file"
  | .folder => "folder"
  | .comment => "comment"
  | .link => "link"
  | .artifact => "artifact"

def driveShareAclRights : DriveShareRole → SortedSet AclRight
  | .viewer | .commenter | .agentReader => .ofList [.read]
  | .editor | .agentEditor => .ofList [.read, .write]
  | .owner => .ofList [.read, .write, .admin]

def driveShareAclGrant (workspaceId : Text) (grant : DriveShareGrant) : AclGrant where
  subject := .principal grant.principal
  workspace := none
  domain := some .files
  refGlob := none
  scopes := [.startsWith .collection
    (strBytes (driveAclScopeValue workspaceId (shareTargetKind grant.targetKind) grant.targetId))]
  rights := driveShareAclRights grant.role
  effect := .allow
  predicate := none

def persistedAclSnapshot (D : State) : AclStore := D.persistedAcl.getD D.acl

def State.setAcl (D : State) (acl : AclStore) : State :=
  { D with acl := acl, persistedAcl := some acl }

structure HostedDriveGrantShare where
  workspaceId : Text
  grantId : Text
  targetKind : DriveShareTargetKind
  targetId : Text
  principal : PrincipalId
  role : DriveShareRole
  grantedAtMs : UInt64
  expiresAtMs : Option UInt64

def HostedDriveGrantShare.share (request : HostedDriveGrantShare) (actor : PrincipalId) :
    DriveShareGrant :=
  ⟨request.grantId, request.targetKind, request.targetId, request.principal, request.role, actor,
    request.grantedAtMs, request.expiresAtMs⟩

def grantShare (env : Env) (ctx : Context) (request : HostedDriveGrantShare) (D : State) :
    Result State := do
  authorizeDriveCollection env ctx D request.workspaceId .admin
  authorizeDriveTarget env ctx D request.workspaceId (shareTargetKind request.targetKind)
    request.targetId .admin
  (request.share ctx.principal).validate
  let shares ← loadShares D request.workspaceId
  refuse (request.grantId ∈ shares.grants.map (·.grantId))
    ⟨.alreadyExists, "drive share grant already exists"⟩
  let index ← DriveShareIndex.new request.workspaceId (shares.grants ++ [request.share ctx.principal])
  let acl ← (persistedAclSnapshot D).grant
    (driveShareAclGrant request.workspaceId (request.share ctx.principal))
  let snapshot ← loadSnapshotOrEmpty D request.workspaceId
  let key ← driveShareIndexKey request.workspaceId
  let recorded ← recordOperation ctx D snapshot [(key, some (.shares index))]
  return recorded.setAcl acl

/-- Drop one copy of every grant, and say whether there was one. -/
def revokeEach (acl : AclStore) (grants : List AclGrant) : AclStore × Bool :=
  grants.foldl (fun (acl, changed) g => ((acl.revokeOne g).1, changed || (acl.revokeOne g).2))
    (acl, false)

/-- Keep some shares of a Drive and drop the grants of the others. -/
def dropShares (ctx : Context) (workspaceId : Text) (dropped retained : List DriveShareGrant)
    (D : State) : Result State := do
  let index ← DriveShareIndex.new workspaceId retained
  let revoked := revokeEach (persistedAclSnapshot D) (dropped.map (driveShareAclGrant workspaceId))
  let snapshot ← loadSnapshotOrEmpty D workspaceId
  let key ← driveShareIndexKey workspaceId
  let recorded ← recordOperation ctx D snapshot [(key, some (.shares index))]
  return if revoked.2 then recorded.setAcl revoked.1 else recorded

def revokeShare (env : Env) (ctx : Context) (workspaceId grantId : Text) (D : State) :
    Result State := do
  authorizeDriveCollection env ctx D workspaceId .admin
  let shares ← loadShares D workspaceId
  match shares.grants.find? (·.grantId = grantId) with
  | none => throw (.notFound "drive share grant not found")
  | some grant =>
    authorizeDriveTarget env ctx D workspaceId (shareTargetKind grant.targetKind) grant.targetId
      .admin
    dropShares ctx workspaceId [grant] (shares.grants.eraseP (·.grantId = grantId)) D

def DriveShareGrant.expired (nowMs : UInt64) (grant : DriveShareGrant) : Bool :=
  grant.expiresAtMs.any (· ≤ nowMs)

def applyShareExpiry (env : Env) (ctx : Context) (workspaceId : Text) (nowMs : UInt64) (D : State) :
    Result State := do
  authorizeDriveCollection env ctx D workspaceId .admin
  let shares ← loadShares D workspaceId
  let expired := shares.grants.filter (·.expired nowMs)
  if expired.isEmpty then return D
  else
    expired.forM fun grant => authorizeDriveTarget env ctx D workspaceId
      (shareTargetKind grant.targetKind) grant.targetId .admin
    dropShares ctx workspaceId expired (shares.grants.filter (!·.expired nowMs)) D

inductive ShareCall where
  | grant (request : HostedDriveGrantShare)
  | revoke (workspaceId grantId : Text)
  | expire (workspaceId : Text) (nowMs : UInt64)

def ShareCall.apply (env : Env) (ctx : Context) : ShareCall → State → Result State
  | .grant request, D => grantShare env ctx request D
  | .revoke workspaceId grantId, D => revokeShare env ctx workspaceId grantId D
  | .expire workspaceId nowMs, D => applyShareExpiry env ctx workspaceId nowMs D

def shareStep (env : Env) (call : Context × ShareCall) (D : State) : Result Unit × State :=
  settle D (call.2.apply env call.1 D)

/-! ## The grants that shares stand for -/

def Record.grants : Record → List AclGrant
  | .shares s => s.grants.map (driveShareAclGrant s.workspaceId)
  | _ => []

/-- The grants the share indexes stand for. -/
def State.shared (D : State) : List AclGrant := D.controls.entries.flatMap (·.2.grants)

theorem mem_shared {D : State} {g : AclGrant} : g ∈ D.shared ↔
    ∃ key index, D.controls.get key = some (.shares index) ∧
      ∃ s ∈ index.grants, g = driveShareAclGrant index.workspaceId s := by
  simp only [State.shared, mem_flatMap, Prod.exists]
  constructor
  · rintro ⟨key, record, hmem, hg⟩
    cases record with
    | shares index =>
      obtain ⟨s, hs, rfl⟩ := mem_map.mp hg
      exact ⟨key, index, get_eq_some.mpr hmem, s, hs, rfl⟩
    | _ => cases hg
  · rintro ⟨key, index, hget, s, hs, rfl⟩
    exact ⟨key, _, get_eq_some.mp hget, mem_map_of_mem hs⟩

theorem count_shared_put (D : State) (key : Text) (record : Record) (g : AclGrant) :
    (D.put (key, some record)).shared.count g +
        ((D.controls.get key).elim [] Record.grants).count g =
      D.shared.count g + record.grants.count g := by
  have hput : (D.put (key, some record)).shared.Perm
      (record.grants ++ (D.controls.erase key).entries.flatMap (·.2.grants)) :=
    (perm_insert D.controls key record).flatMap_right _
  rw [hput.count_eq, count_append]
  cases hget : D.controls.get key with
  | none =>
    rw [erase_of_get_none hget]
    simp [State.shared, Nat.add_comm]
  | some old =>
    have hold : D.shared.Perm (old.grants ++ (D.controls.erase key).entries.flatMap (·.2.grants)) :=
      (perm_of_get hget).flatMap_right _
    rw [hold.count_eq, count_append, elim_some]
    omega

section Loaded

variable {D : State} {w : Text} {index : DriveShareIndex} {snapshot : DriveProfileSnapshot}

theorem load_eq_ok {α : Type} {key : Text} {schema : String} {read : Record → Option α}
    {absent : Result α} {a : α} (h : D.load key schema read absent = .ok a) :
    (D.controls.get key = none ∧ absent = .ok a) ∨
      ∃ record, D.controls.get key = some record ∧ read record = some a := by
  unfold State.load at h
  cases hget : D.controls.get key with
  | none => exact .inl ⟨rfl, by rwa [hget] at h⟩
  | some record =>
    rw [hget] at h
    cases hread : read record with
    | none => simp only [hread, elim_none, reduceCtorEq] at h
    | some b =>
      simp only [hread, elim_some, Except.ok.injEq] at h
      exact .inr ⟨record, rfl, h ▸ hread⟩

theorem loadSnapshotFrom_eq_ok {absent : Result DriveProfileSnapshot}
    (h : loadSnapshotFrom D w absent = .ok snapshot) :
    (D.controls.get (controlKey w "snapshot") = none ∧ absent = .ok snapshot) ∨
      D.controls.get (controlKey w "snapshot") = some (.snapshot snapshot) := by
  obtain ⟨key, hkey, h⟩ := of_bind h
  obtain rfl := checkedKey_eq_ok hkey
  refine (load_eq_ok h).imp_right ?_
  rintro ⟨record, hget, hread⟩
  cases record <;> simp_all

theorem loadShares_eq_ok (hD : D.Filed) (h : loadShares D w = .ok index) : index.workspaceId = w ∧
      (D.controls.get (controlKey w "shares")).elim [] Record.grants =
        index.grants.map (driveShareAclGrant w) := by
  obtain ⟨key, hkey, h⟩ := of_bind h
  obtain rfl := checkedKey_eq_ok hkey
  rcases load_eq_ok h with ⟨hget, h⟩ | ⟨record, hget, hread⟩
  · cases h
    rw [hget]
    exact ⟨rfl, rfl⟩
  · cases record with
    | shares s =>
      cases hread
      obtain rfl := controlKey_injective "shares" (hD _ _ hget)
      rw [hget]
      exact ⟨rfl, rfl⟩
    | _ => cases hread

theorem snapshot_workspaceId (hD : D.Filed) (h : loadSnapshotOrEmpty D w = .ok snapshot) :
    snapshot.workspaceId = w := by
  rcases loadSnapshotFrom_eq_ok h with ⟨_, h⟩ | h
  · cases h
    rfl
  · exact (controlKey_injective "snapshot" (hD _ _ h)).symm

/-- Writing back a share index changes the grants by what changed in the index. -/
theorem recordShares {ctx : Context} {D' : State} {old : DriveShareIndex} (hD : D.Filed)
    (hold : loadShares D w = .ok old) (hsnap : loadSnapshotOrEmpty D w = .ok snapshot)
    (hw : index.workspaceId = w)
    (h : recordOperation ctx D snapshot [(controlKey w "shares", some (.shares index))] = .ok D') :
    D'.acl = D.acl ∧ D'.persistedAcl = D.persistedAcl ∧ D'.Filed ∧ ∀ g,
      D'.shared.count g + (old.grants.map (driveShareAclGrant w)).count g =
        D.shared.count g + (index.grants.map (driveShareAclGrant w)).count g := by
  have hws := snapshot_workspaceId hD hsnap
  obtain ⟨hload, rfl⟩ := recordOperation_eq_ok h
  rw [hws] at hload ⊢
  refine ⟨rfl, rfl, hD.write ?_, fun g => ?_⟩
  · simp [Record.Filed, hw, hws]
  have hne : controlKey w "shares" ≠ controlKey w "snapshot" :=
    controlKey_ne w w (by decide)
  have hne' : controlKey w "shares" ≠ controlKey w "operations" :=
    controlKey_ne w w (by decide)
  have hne'' : controlKey w "snapshot" ≠ controlKey w "operations" :=
    controlKey_ne w w (by decide)
  have h1 := count_shared_put D (controlKey w "shares") (.shares index) g
  have h2 := count_shared_put (D.put (controlKey w "shares", some (.shares index)))
    (controlKey w "snapshot") (.snapshot snapshot) g
  have h3 := count_shared_put ((D.put (controlKey w "shares", some (.shares index))).put
    (controlKey w "snapshot", some (.snapshot snapshot))) (controlKey w "operations") .operations g
  rw [(loadShares_eq_ok hD hold).2] at h1
  have hnone : (D.controls.get (controlKey w "snapshot")).elim [] Record.grants = [] := by
    rcases loadSnapshotFrom_eq_ok hsnap with ⟨hget, _⟩ | hget <;> rw [hget] <;> rfl
  have hnone' : (D.controls.get (controlKey w "operations")).elim [] Record.grants = [] := by
    obtain ⟨key, hkey, hload⟩ := of_bind hload
    obtain rfl := checkedKey_eq_ok hkey
    rcases load_eq_ok hload with ⟨hget, _⟩ | ⟨record, hget, hread⟩
    · rw [hget]
      rfl
    · cases record <;> simp_all [Record.grants]
  rw [State.get_put, if_neg hne, hnone] at h2
  rw [State.get_put, if_neg hne'', State.get_put, if_neg hne', hnone'] at h3
  simp only [Record.grants, hw, count_nil, Nat.add_zero] at h1 h2 h3
  change (((D.put _).put _).put _).shared.count g + _ = _
  omega

end Loaded

/-! ## What the calls keep -/

/-- Of the grants that reach a principal, the policy has as many copies as there are shares. -/
structure Kept (p : PrincipalId) (roles : SortedSet RoleId) (D : State) : Prop where
  filed : D.Filed
  memory : ∀ g : AclGrant, g.subjectMatches p roles → D.acl.grants.count g = D.shared.count g
  stored : ∀ g : AclGrant, g.subjectMatches p roles →
    (persistedAclSnapshot D).grants.count g = D.shared.count g

theorem grants_of_grant {acl acl' : AclStore} {g : AclGrant} (h : acl.grant g = .ok acl') :
    acl'.grants = acl.grants ++ [g] := by
  obtain ⟨_, h⟩ := ite_error_eq_ok.mp h
  obtain ⟨⟨⟩, _, h⟩ := of_bind h
  obtain ⟨⟨⟩, _, h⟩ := of_bind h
  obtain ⟨_, h⟩ := ite_error_eq_ok.mp h
  cases h
  rfl

theorem revokeEach_spec (acl : AclStore) (grants : List AclGrant) :
    (revokeEach acl grants).1.grants = acl.grants.diff grants ∧
      ((revokeEach acl grants).2 = false → (revokeEach acl grants).1 = acl) := by
  have hgen : ∀ (acl : AclStore) (changed : Bool), let r := grants.foldl (fun (acl, changed) g =>
        ((AclStore.revokeOne acl g).1, changed || (AclStore.revokeOne acl g).2)) (acl, changed)
      r.1.grants = acl.grants.diff grants ∧ (r.2 = false → r.1 = acl ∧ changed = false) := by
    induction grants with
    | nil => exact fun acl changed => ⟨rfl, fun h => ⟨rfl, h⟩⟩
    | cons g grants ih =>
      intro acl changed
      obtain ⟨h1, h2⟩ := ih (acl.revokeOne g).1 (changed || (acl.revokeOne g).2)
      have herase : (acl.revokeOne g).1.grants = acl.grants.erase g := by
        unfold AclStore.revokeOne
        split_ifs with hg
        · rfl
        · exact (erase_of_not_mem hg).symm
      refine ⟨?_, fun h => ?_⟩
      · rw [diff_cons, ← herase]
        exact h1
      · obtain ⟨h3, h4⟩ := h2 h
        obtain ⟨h4, h5⟩ := Bool.or_eq_false_iff.mp h4
        refine ⟨h3.trans ?_, h4⟩
        unfold AclStore.revokeOne at h5 ⊢
        split_ifs at h5 ⊢
        rfl
  exact ⟨(hgen acl false).1, fun h => ((hgen acl false).2 h).1⟩

section Steps

variable {p : PrincipalId} {roles : SortedSet RoleId} {env : Env} {ctx : Context} {D D' : State}

theorem shareIndex_new {w : Text} {grants : List DriveShareGrant} {index : DriveShareIndex}
    (h : DriveShareIndex.new w grants = .ok index) : index = ⟨w, grants⟩ := by
  obtain ⟨⟨⟩, _, h⟩ := of_bind h
  obtain ⟨⟨⟩, _, h⟩ := of_bind h
  exact (Except.ok.inj h).symm

theorem Kept.grantShare {request : HostedDriveGrantShare} (hK : Kept p roles D)
    (h : grantShare env ctx request D = .ok D') : Kept p roles D' := by
  obtain ⟨⟨⟩, _, h⟩ := of_bind h
  obtain ⟨⟨⟩, _, h⟩ := of_bind h
  obtain ⟨⟨⟩, _, h⟩ := of_bind h
  obtain ⟨shares, hshares, h⟩ := of_bind h
  obtain ⟨⟨⟩, _, h⟩ := of_bind h
  obtain ⟨index, hindex, h⟩ := of_bind h
  obtain ⟨acl, hacl, h⟩ := of_bind h
  obtain ⟨snapshot, hsnap, h⟩ := of_bind h
  obtain ⟨key, hkey, h⟩ := of_bind h
  obtain ⟨recorded, hrec, h⟩ := of_bind h
  cases h
  obtain rfl := checkedKey_eq_ok hkey
  obtain rfl := shareIndex_new hindex
  obtain ⟨_, _, hfiled, hcount⟩ := recordShares hK.filed hshares hsnap rfl hrec
  have hgrants : ∀ g : AclGrant, g.subjectMatches p roles →
      acl.grants.count g = recorded.shared.count g := by
    intro g hg
    have := hcount g
    rw [map_append, count_append, map_singleton] at this
    rw [grants_of_grant hacl, count_append, hK.stored g hg]
    omega
  exact ⟨hfiled, hgrants, hgrants⟩

theorem Kept.dropShares {w : Text} {shares : DriveShareIndex} {dropped retained : List DriveShareGrant}
    (hK : Kept p roles D) (hshares : loadShares D w = .ok shares)
    (hperm : shares.grants.Perm (dropped ++ retained))
    (h : dropShares ctx w dropped retained D = .ok D') : Kept p roles D' := by
  obtain ⟨index, hindex, h⟩ := of_bind h
  obtain ⟨snapshot, hsnap, h⟩ := of_bind h
  obtain ⟨key, hkey, h⟩ := of_bind h
  obtain ⟨recorded, hrec, h⟩ := of_bind h
  have hD' := Except.ok.inj h
  obtain rfl := checkedKey_eq_ok hkey
  obtain rfl := shareIndex_new hindex
  obtain ⟨hmem, hstored, hfiled, hcount⟩ := recordShares hK.filed hshares hsnap rfl hrec
  obtain ⟨hdiff, hsame⟩ := revokeEach_spec (persistedAclSnapshot D)
    (dropped.map (driveShareAclGrant w))
  have hgrants : ∀ g : AclGrant, g.subjectMatches p roles →
      (revokeEach (persistedAclSnapshot D) (dropped.map (driveShareAclGrant w))).1.grants.count g =
        recorded.shared.count g := by
    intro g hg
    have := hcount g
    rw [(hperm.map _).count_eq, map_append, count_append] at this
    dsimp only at this
    rw [hdiff, count_diff, hK.stored g hg]
    omega
  split_ifs at hD' with hchanged
  · subst hD'
    exact ⟨hfiled, hgrants, hgrants⟩
  · -- no grant was there to drop, so the policy and the shares of the principal are as before
    subst hD'
    rw [hsame (by simpa using hchanged)] at hgrants
    have hpersisted : persistedAclSnapshot recorded = persistedAclSnapshot D := by
      rw [persistedAclSnapshot, hmem, hstored]
      rfl
    refine ⟨hfiled, fun g hg => ?_, fun g hg => by rw [hpersisted, hgrants g hg]⟩
    rw [hmem, hK.memory g hg, ← hK.stored g hg, hgrants g hg]

theorem Kept.revokeShare {w grantId : Text} (hK : Kept p roles D)
    (h : revokeShare env ctx w grantId D = .ok D') : Kept p roles D' := by
  obtain ⟨⟨⟩, _, h⟩ := of_bind h
  obtain ⟨shares, hshares, h⟩ := of_bind h
  cases hfind : shares.grants.find? (·.grantId = grantId) with
  | none =>
    rw [hfind] at h
    cases h
  | some grant =>
    rw [hfind] at h
    obtain ⟨⟨⟩, _, h⟩ := of_bind h
    refine hK.dropShares hshares ?_ h
    obtain ⟨hgrant, before, after, hl, hbefore⟩ := List.find?_eq_some_iff_append.mp hfind
    rw [hl, eraseP_append_right _ (fun b hb => by simpa using hbefore b hb),
      eraseP_cons_of_pos (p := fun s : DriveShareGrant => s.grantId = grantId) hgrant]
    exact perm_middle

theorem Kept.applyShareExpiry {w : Text} {nowMs : UInt64} (hK : Kept p roles D)
    (h : applyShareExpiry env ctx w nowMs D = .ok D') : Kept p roles D' := by
  obtain ⟨⟨⟩, _, h⟩ := of_bind h
  obtain ⟨shares, hshares, h⟩ := of_bind h
  dsimp only at h
  split_ifs at h
  · cases h
    exact hK
  · obtain ⟨⟨⟩, _, h⟩ := of_bind h
    exact hK.dropShares hshares (filter_append_perm _ _).symm h

/-- **Every call keeps the two copies of the shares in step.** -/
theorem Kept.step (hK : Kept p roles D) (call : Context × ShareCall) :
    Kept p roles (shareStep env call D).2 := by
  unfold shareStep
  cases h : call.2.apply env call.1 D with
  | error e => exact hK
  | ok D' =>
    obtain ⟨ctx, request | ⟨w, grantId⟩ | ⟨w, nowMs⟩⟩ := call
    · exact hK.grantShare h
    · exact hK.revokeShare h
    · exact hK.applyShareExpiry h

end Steps

/-! ## What a share opens -/

/-- A role gives a right, or administration, which stands for every right. -/
def DriveShareRole.confers (role : DriveShareRole) (right : AclRight) : Prop :=
  right ∈ driveShareAclRights role ∨ AclRight.admin ∈ driveShareAclRights role

section Opens

variable (p : PrincipalId) (D : State) (right : AclRight)

/-- The principal has a share of the target, in the index of its Drive. -/
def SharedWith (w : Text) (kind : DriveShareTargetKind) (id : Text) : Prop :=
  ∃ index, D.controls.get (controlKey w "shares") = some (.shares index) ∧ ∃ s ∈ index.grants,
    s.principal = p ∧ s.targetKind = kind ∧ s.targetId = id ∧ s.role.confers right

/-- A share whose text the target's text starts with comes with a share of the target. -/
def Apart (w : Text) (kind : DriveShareTargetKind) (id : Text) : Prop :=
  ∀ w' kind' id', SharedWith p D right w' kind' id' →
    strBytes (driveAclScopeValue w' (shareTargetKind kind') id') <+:
      strBytes (driveAclScopeValue w (shareTargetKind kind) id) →
    SharedWith p D right w kind id

/-- No grant reaches the principal, and nothing is shared with them. -/
structure Unreached (roles : SortedSet RoleId) : Prop where
  memory : ∀ g ∈ D.acl.grants, ¬ g.subjectMatches p roles
  stored : ∀ g ∈ (persistedAclSnapshot D).grants, ¬ g.subjectMatches p roles
  shares : ∀ key index, D.controls.get key = some (.shares index) → ∀ s ∈ index.grants,
    s.principal ≠ p

variable {p D right}

theorem Unreached.kept {roles : SortedSet RoleId} (h : Unreached p D roles) (hD : D.Filed) :
    Kept p roles D := by
  have hshared : ∀ g : AclGrant, g.subjectMatches p roles → D.shared.count g = 0 := by
    intro g hg
    rw [count_eq_zero, mem_shared]
    rintro ⟨key, index, hget, s, hs, rfl⟩
    exact h.shares key index hget s hs (by simpa [AclGrant.subjectMatches, driveShareAclGrant] using hg)
  refine ⟨hD, fun g hg => ?_, fun g hg => ?_⟩
  · rw [hshared g hg, count_eq_zero]
    exact fun hmem => h.memory g hmem hg
  · rw [hshared g hg, count_eq_zero]
    exact fun hmem => h.stored g hmem hg

theorem baseMatches_driveShareAclGrant {roles : SortedSet RoleId} {w : Text} {s : DriveShareGrant}
    {workspace : WorkspaceId} {value : Bytes} :
    (driveShareAclGrant w s).baseMatches p roles ⟨workspace, .files, none, .value .collection value⟩
        right = true ↔
      s.principal = p ∧ s.role.confers right ∧
        strBytes (driveAclScopeValue w (shareTargetKind s.targetKind) s.targetId) <+: value := by
  simp only [AclGrant.baseMatches, Bool.and_eq_true, Bool.or_eq_true, decide_eq_true_eq]
  simp only [AclGrant.subjectMatches, AclGrant.refMatches, driveShareAclGrant, AclScope.covers,
    scopeKindCovers, DriveShareRole.confers, all_none, all_some, isNone_none,
    decide_true, Bool.true_or, Bool.true_and, Bool.and_true, any_cons, any_nil,
    Bool.or_false, decide_eq_true_eq, isPrefixOf_iff_prefix]
  tauto

/-- **A principal has a right on a target exactly if a share's text begins the target's.** -/
theorem Kept.authorize_iff {env : Env} {ctx : Context} (hauth : ctx.authenticated = true)
    (hK : Kept ctx.principal (.ofList ctx.roles) D) {value : Bytes} :
    authorizeDriveScope env ctx D value right = .ok () ↔
      ∃ w kind id, SharedWith ctx.principal D right w kind id ∧
        strBytes (driveAclScopeValue w (shareTargetKind kind) id) <+: value := by
  have hmem : ∀ g : AclGrant, g.subjectMatches ctx.principal (.ofList ctx.roles) →
      (g ∈ D.acl.grants ↔ g ∈ D.shared) := fun g hg => by
    rw [← count_pos_iff, hK.memory g hg, count_pos_iff]
  have hsubject : ∀ {g : AclGrant} {resource}, g.baseMatches ctx.principal (.ofList ctx.roles)
      resource right = true → g.subjectMatches ctx.principal (.ofList ctx.roles) := fun h => by
    simp only [AclGrant.baseMatches, Bool.and_eq_true] at h
    exact h.1.1.1.1.1
  unfold authorizeDriveScope authorizeResource AclStore.authorizeResourceWithRolesAndEvaluator
  rw [hauth, if_neg (by decide), survey_eq_ok]
  simp only [mem_filter]
  constructor
  · rintro ⟨_, g, ⟨hg, hbase⟩, _⟩
    obtain ⟨key, index, hget, s, hs, rfl⟩ := mem_shared.mp ((hmem g (hsubject hbase)).mp hg)
    obtain ⟨hp, hr, hpre⟩ := baseMatches_driveShareAclGrant.mp hbase
    obtain rfl : key = controlKey index.workspaceId "shares" := hK.filed key _ hget
    exact ⟨index.workspaceId, s.targetKind, s.targetId, ⟨index, hget, s, hs, hp, rfl, rfl, hr⟩, hpre⟩
  · rintro ⟨w, _, _, ⟨index, hget, s, hs, hp, rfl, rfl, hr⟩, hpre⟩
    obtain rfl : w = index.workspaceId := controlKey_injective "shares" (hK.filed _ _ hget)
    have hbase : (driveShareAclGrant index.workspaceId s).baseMatches ctx.principal
        (.ofList ctx.roles) ⟨ctx.workspace, .files, none, .value .collection value⟩ right = true :=
      baseMatches_driveShareAclGrant.mpr ⟨hp, hr, hpre⟩
    refine ⟨fun g hg => ?_, _, ⟨?_, hbase⟩, resourceVerdict_of_allow rfl rfl⟩
    · obtain ⟨_, _, _, _, _, rfl⟩ := mem_shared.mp ((hmem g (hsubject hg.2)).mp hg.1)
      exact ⟨true, resourceVerdict_of_allow rfl rfl⟩
    · exact (hmem _ (hsubject hbase)).mpr (mem_shared.mpr ⟨_, index, hget, s, hs, rfl⟩)

/-- **After a run of share calls, the rights on a target are the shares of it exactly if the shares
whose text begins the target's come with one.** -/
theorem shares_exact_iff (env : Env) (ctx : Context) (hauth : ctx.authenticated = true) (D : State)
    (hD : D.Filed) (hfresh : Unreached ctx.principal D (.ofList ctx.roles))
    (calls : List (Context × ShareCall)) (right : AclRight) (w : Text) (kind : DriveShareTargetKind)
    (id : Text) :
    (authorizeDriveTarget env ctx (run (shareStep env) calls D) w (shareTargetKind kind) id right =
        .ok () ↔ SharedWith ctx.principal (run (shareStep env) calls D) right w kind id) ↔
      Apart ctx.principal (run (shareStep env) calls D) right w kind id := by
  have hK : Kept ctx.principal (.ofList ctx.roles) (run (shareStep env) calls D) :=
    run_invariant (G := fun _ _ => True) (fun _ call _ hK => hK.step call)
      (along_of_forall (fun _ _ => trivial) calls D) (hfresh.kept hD)
  rw [authorizeDriveTarget, hK.authorize_iff hauth]
  constructor
  · exact fun h w' kind' id' hshared hpre => h.mp ⟨w', kind', id', hshared, hpre⟩
  · intro h
    refine ⟨fun ⟨w', kind', id', hshared, hpre⟩ => h w' kind' id' hshared hpre, fun hshared => ?_⟩
    exact ⟨w, kind, id, hshared, prefix_rfl⟩

end Opens

namespace Sample

def zero : Digest := Substrate.Sample.digest 0

def owner : PrincipalId := ⟨List.replicate 16 1, rfl⟩

def member : PrincipalId := ⟨List.replicate 16 2, rfl⟩

def env : Env :=
  ⟨fun _ => zero, fun _ => zero, fun _ => .ok [], fun _ => zero, id, fun name _ => .ok name, none⟩

def asking (principal : PrincipalId) : Context :=
  ⟨owner, true, principal, [], 0, fun _ => .ok (), fun _ => .ok (some [1]), .ok ()⟩

/-- A store without records, administered by its owner. -/
def fresh : State :=
  ⟨.empty, ⟨[⟨.principal owner, none, none, none, [.all], .ofList [.admin], .allow, none⟩]⟩, none⟩

/-- The owner lets the member read the file `a`. -/
def letRead : Context × ShareCall :=
  (asking owner, .grant ⟨"w", "g", .file, "a", member, .viewer, 0, none⟩)

theorem not_sharedWith_ab : ¬ SharedWith member (run (shareStep env) [letRead] fresh) .read "w" .file "ab" := by
  rintro ⟨index, hget, s, hs, _, _, hid, _⟩
  have hstored : (run (shareStep env) [letRead] fresh).controls.get (controlKey "w" "shares") =
      some (.shares ⟨"w", [⟨"g", .file, "a", member, .viewer, owner, 0, none⟩]⟩) := by
    decide +kernel
  cases hget
  obtain rfl := mem_singleton.mp hs
  exact absurd (show ("a" : String) = "ab" from hid) (by decide)

/-- With a share of the file `a`, the member reads the file `ab` too. -/
theorem share_opens_longer_id : (shareStep env letRead fresh).1 = .ok () ∧
      authorizeDriveTarget env (asking member) (run (shareStep env) [letRead] fresh) "w" "file" "ab"
        .read = .ok () ∧
      ¬ SharedWith member (run (shareStep env) [letRead] fresh) .read "w" .file "ab" :=
  ⟨by decide +kernel, by decide +kernel, not_sharedWith_ab⟩

theorem unreached_fresh : Unreached member fresh (.ofList []) where
  memory := by decide +kernel
  stored := by decide +kernel
  shares := fun _ _ hget => by cases hget

/-- The text of the share of `a` begins that of `ab`, which is not shared. -/
theorem not_apart_ab : ¬ Apart member (run (shareStep env) [letRead] fresh) .read "w" .file "ab" :=
  fun h => not_sharedWith_ab (((shares_exact_iff env (asking member) rfl fresh
    (fun _ _ hget => by cases hget) unreached_fresh [letRead] .read "w" .file "ab").mpr h).mp
      (by decide +kernel))

end Sample

end UldrenLoom.Drive
