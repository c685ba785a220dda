import UldrenLoom.Vcs.Loom

/-!
# Grants and authorization

The access policy of a loom is a list of grants, each for a subject, with up to four restrictions: to
a workspace, to a domain, to the references a glob matches and to scopes.

* **`GlobalAdminSpec`**: a global administrator has a grant without any restriction, and so may do
  everything everywhere.
* **`globalAdminSpec_iff`**: this holds exactly where the grants the decision looks at are `Backed`; the
  decision itself looks neither at the glob nor at the scopes.
-/

namespace UldrenLoom.Acl

open ByteString Fallible Vcs List

abbrev PrincipalId := WorkspaceId

abbrev RoleId := WorkspaceId

theorem ctorIdx_injective : Function.Injective AclRight.ctorIdx := by
  intro a b
  cases a <;> cases b <;> simp [AclRight.ctorIdx]

instance : LinearOrder AclRight := LinearOrder.lift' AclRight.ctorIdx ctorIdx_injective

/-- Whether a grant permits or forbids. -/
inductive AclEffect where
  | allow
  | deny
deriving Repr, DecidableEq

/-- Whom a grant is for. -/
inductive AclSubject where
  | principal (id : PrincipalId)
  | role (id : RoleId)
  | everyone
deriving Repr, DecidableEq

/-- What a scope's bytes name. -/
inductive AclScopeKind where
  | ref
  | collection
  | path
  | key
  | table
  | exec
deriving Repr, DecidableEq

/-- The part of a domain a grant is for. -/
inductive AclScope where
  | all
  | startsWith (kind : AclScopeKind) (bytes : Bytes)
deriving Repr, DecidableEq

/-- The part of a domain a request is for. -/
inductive AclResourceScope where
  | all
  | value (kind : AclScopeKind) (bytes : Bytes)
deriving Repr, DecidableEq

/-- A condition on the request, in a policy language. -/
structure AclPredicate where
  language : String
  expression : String
deriving Repr, DecidableEq

/-- The domains a request can be for. -/
inductive AclDomain where
  | files
  | vcs
  | sql
  | kv
  | document
  | vector
  | graph
  | columnar
  | queue
  | timeSeries
  | cas
  | ledger
  | program
  | calendar
  | contacts
  | mail
  | search
  | dataframe
  | metrics
  | logs
  | traces
  | tickets
  | pages
  | chat
  | lifecycle
  | meetings
  | inference
deriving Repr, DecidableEq

/-- What a request is for. -/
structure AclResource where
  workspace : WorkspaceId
  domain : AclDomain
  refName : Option String
  scope : AclResourceScope
deriving Repr, DecidableEq

def AclResource.all (workspace : WorkspaceId) (domain : AclDomain) : AclResource :=
  ⟨workspace, domain, none, .all⟩

/-- A grant. -/
structure AclGrant where
  subject : AclSubject
  workspace : Option WorkspaceId
  domain : Option AclDomain
  refGlob : Option String
  scopes : List AclScope
  rights : SortedSet AclRight
  effect : AclEffect
  predicate : Option AclPredicate
deriving DecidableEq

/-! ## Matching -/

/-- Whether a pattern with `*` and `?` matches. -/
def globMatchesAt : Bytes → Bytes → Bool
  | [], value => value.isEmpty
  | c :: rest, value =>
    if c = 0x2a then
      globMatchesAt rest value ||
        match value with
        | [] => false
        | _ :: tail => globMatchesAt (c :: rest) tail
    else if c = 0x3f then
      match value with
      | [] => false
      | _ :: tail => globMatchesAt rest tail
    else
      match value with
      | [] => false
      | head :: tail => head = c && globMatchesAt rest tail
termination_by pattern value => (pattern.length, value.length)

def globMatches (pattern value : String) : Bool := globMatchesAt (strBytes pattern) (strBytes value)

/-- A collection's scope covers what the collection holds. -/
def scopeKindCovers (grant resource : AclScopeKind) : Bool :=
  grant = resource ||
    (grant = .collection &&
      (resource = .collection || resource = .path || resource = .key || resource = .table))

def AclScope.covers : AclScope → AclResourceScope → Bool
  | .all, _ => true
  | .startsWith .., .all => false
  | .startsWith kind bytes, .value resourceKind value =>
    scopeKindCovers kind resourceKind && bytes.isPrefixOf value

namespace AclGrant

def subjectMatches (g : AclGrant) (principal : PrincipalId) (roles : SortedSet RoleId) : Bool :=
  match g.subject with
  | .everyone => true
  | .principal p => p = principal
  | .role role => decide (role ∈ roles)

def refMatches (g : AclGrant) : Option String → Bool
  | none => g.refGlob.isNone
  | some value => g.refGlob.all (globMatches · value)

def baseMatches (g : AclGrant) (principal : PrincipalId) (roles : SortedSet RoleId)
    (resource : AclResource) (right : AclRight) : Bool :=
  g.subjectMatches principal roles &&
    g.workspace.all (· = resource.workspace) &&
    g.domain.all (· = resource.domain) &&
    g.refMatches resource.refName &&
    g.scopes.any (·.covers resource.scope) &&
    (decide (right ∈ g.rights) || decide (AclRight.admin ∈ g.rights))

end AclGrant

/-! ## The store -/

def aclMaxScopesPerGrant : ℕ := 64

def aclMaxScopePrefixLen : ℕ := 1024

def aclMaxGrantsPerSubject : ℕ := 256

def aclMaxPredicateLen : ℕ := 4096

def validateScopes (scopes : List AclScope) : Result Unit :=
  if scopes.isEmpty then .error (.invalid "acl grant must include at least one scope")
  else if aclMaxScopesPerGrant < scopes.length then
    .error (.invalid "acl grant scope limit exceeded")
  else scopes.forM fun
    | .all => .ok ()
    | .startsWith _ bytes =>
      if aclMaxScopePrefixLen < bytes.length then .error (.invalid "acl grant scope prefix too long")
      else .ok ()

def validatePredicate (predicate : AclPredicate) : Result Unit :=
  if predicate.language ≠ "cel" then .error (.invalid "acl predicate language must be cel")
  else if predicate.expression.isEmpty then
    .error (.invalid "acl predicate expression must not be empty")
  else if aclMaxPredicateLen < predicate.expression.utf8ByteSize then
    .error (.invalid "acl predicate expression too long")
  else .ok ()

/-- The policy. -/
structure AclStore where
  grants : List AclGrant
deriving DecidableEq

namespace AclStore

def new : AclStore := ⟨[]⟩

def grant (store : AclStore) (g : AclGrant) : Result AclStore := do
  if g.rights.elems.isEmpty then throw (.invalid "acl grant must include at least one right")
  else
    validateScopes g.scopes
    g.predicate.forM validatePredicate
    if aclMaxGrantsPerSubject ≤ store.grants.countP (·.subject = g.subject) then
      throw (.invalid "acl grant subject limit exceeded")
    else return ⟨store.grants ++ [g]⟩

/-- Drop the first copy of a grant, and say whether there was one. -/
def revokeOne (store : AclStore) (g : AclGrant) : AclStore × Bool :=
  if g ∈ store.grants then (⟨store.grants.erase g⟩, true) else (store, false)

variable {store : AclStore}

end AclStore

/-! ## The two decisions -/

def denied (message : String) : LoomError := ⟨.permissionDenied, message⟩

/-- The loop over the grants that match: each may refuse, and one has to permit. -/
def survey (verdict : AclGrant → Result Bool) (grants : List AclGrant) : Result Unit := do
  let allowed ← grants.foldlM (fun allowed g => do return allowed || (← verdict g)) false
  if allowed then return () else throw (denied "acl default deny")

theorem foldlM_verdicts (verdict : AclGrant → Result Bool) (grants : List AclGrant)
    (allowed result : Bool) :
    grants.foldlM (fun allowed g => do return allowed || (← verdict g)) allowed = .ok result ↔
      (∀ g ∈ grants, ∃ b, verdict g = .ok b) ∧
        (result = true ↔ allowed = true ∨ ∃ g ∈ grants, verdict g = .ok true) := by
  induction grants generalizing allowed with
  | nil =>
    change (Except.ok allowed : Result Bool) = .ok result ↔ _
    cases allowed <;> cases result <;> simp
  | cons g grants ih =>
    rw [foldlM_cons]
    cases hv : verdict g with
    | error e =>
      refine iff_of_false (fun h => by cases h) fun h => ?_
      obtain ⟨b, hb⟩ := h.1 g (mem_cons_self ..)
      rw [hv] at hb
      cases hb
    | ok b =>
      change (grants.foldlM _ (allowed || b) = _) ↔ _
      rw [ih, forall_mem_cons, exists_mem_cons_iff, hv, Bool.or_eq_true, Except.ok.injEq, or_assoc]
      simp

/-- **Every grant that matches gives a verdict, and one of them permits.** -/
theorem survey_eq_ok {verdict : AclGrant → Result Bool} {grants : List AclGrant} :
    survey verdict grants = .ok () ↔
      (∀ g ∈ grants, ∃ b, verdict g = .ok b) ∧ ∃ g ∈ grants, verdict g = .ok true := by
  unfold survey
  rw [bind_eq_ok]
  constructor
  · rintro ⟨allowed, hfold, h⟩
    obtain ⟨hall, hany⟩ := (foldlM_verdicts verdict grants false allowed).mp hfold
    cases allowed with
    | false => cases h
    | true => exact ⟨hall, (hany.mp rfl).resolve_left Bool.false_ne_true⟩
  · rintro ⟨hall, hany⟩
    exact ⟨true, (foldlM_verdicts verdict grants false true).mpr
      ⟨hall, iff_of_true rfl (.inr hany)⟩, rfl⟩

/-- What a predicate is evaluated in. -/
structure AclEvaluationContext where
  principal : PrincipalId
  roles : SortedSet RoleId
  resource : AclResource
  right : AclRight

abbrev AclPredicateEvaluator := AclPredicate → AclEvaluationContext → Result Bool

def resourceVerdict (evaluator : Option AclPredicateEvaluator) (context : AclEvaluationContext)
    (g : AclGrant) : Result Bool := do
  let predicateMatches ← match g.predicate with
    | none => pure true
    | some predicate => match evaluator with
      | some evaluate => evaluate predicate context
      | none => throw (denied "acl predicate evaluator unavailable")
  match g.effect with
  | .deny => if predicateMatches then throw (denied "acl denied") else return false
  | .allow => return predicateMatches

/-- What a matching grant says about global administration. -/
def adminVerdict (g : AclGrant) : Result Bool :=
  if g.predicate.isSome then .error (denied "acl predicate evaluator unavailable")
  else match g.effect with
    | .deny => .error (denied "acl denied")
    | .allow => .ok true

namespace AclStore

def authorizeResourceWithRolesAndEvaluator (store : AclStore) (authenticatedMode : Bool)
    (principal : PrincipalId) (roles : List RoleId) (resource : AclResource) (right : AclRight)
    (evaluator : Option AclPredicateEvaluator) : Result Unit :=
  if !authenticatedMode then .ok ()
  else
    let roles := SortedSet.ofList roles
    survey (resourceVerdict evaluator ⟨principal, roles, resource, right⟩)
      (store.grants.filter (·.baseMatches principal roles resource right))

def authorizeResourceWithRoles (store : AclStore) (authenticatedMode : Bool)
    (principal : PrincipalId) (roles : List RoleId) (resource : AclResource) (right : AclRight) :
    Result Unit :=
  store.authorizeResourceWithRolesAndEvaluator authenticatedMode principal roles resource right none

/-- The grants that decide over global administration. -/
def adminGrants (store : AclStore) (principal : PrincipalId) (roles : SortedSet RoleId) :
    List AclGrant :=
  store.grants.filter fun g =>
    g.workspace.isNone && g.domain.isNone && decide (AclRight.admin ∈ g.rights) &&
      g.subjectMatches principal roles

def authorizeGlobalAdminWithRoles (store : AclStore) (authenticatedMode : Bool)
    (principal : PrincipalId) (roles : List RoleId) : Result Unit :=
  if !authenticatedMode then .ok ()
  else survey adminVerdict (store.adminGrants principal (SortedSet.ofList roles))

end AclStore

/-! ## Global administration -/

theorem adminVerdict_eq_ok {g : AclGrant} {b : Bool} :
    adminVerdict g = .ok b ↔ b = true ∧ g.effect = .allow ∧ g.predicate = none := by
  unfold adminVerdict
  cases hp : g.predicate with
  | some predicate => simp
  | none =>
    cases he : g.effect with
    | deny => simp
    | allow => simp [eq_comm]

theorem resourceVerdict_of_allow {evaluator : Option AclPredicateEvaluator}
    {context : AclEvaluationContext} {g : AclGrant} (he : g.effect = .allow)
    (hp : g.predicate = none) : resourceVerdict evaluator context g = .ok true := by
  unfold resourceVerdict
  rw [hp, he]
  rfl

section Admin

variable {store : AclStore} {principal : PrincipalId} {roles : List RoleId} {g : AclGrant}

theorem mem_adminGrants {roles : SortedSet RoleId} :
    g ∈ store.adminGrants principal roles ↔ g ∈ store.grants ∧ g.workspace = none ∧
      g.domain = none ∧ AclRight.admin ∈ g.rights ∧ g.subjectMatches principal roles := by
  simp only [AclStore.adminGrants, mem_filter, Bool.and_eq_true, Option.isNone_iff_eq_none,
    decide_eq_true_eq, and_assoc]

/-- **Global administration is authorized where the deciding grants are there and all permit.** -/
theorem authorizeGlobalAdmin_eq_ok :
    store.authorizeGlobalAdminWithRoles true principal roles = .ok () ↔
      store.adminGrants principal (.ofList roles) ≠ [] ∧
        ∀ g ∈ store.adminGrants principal (.ofList roles),
          g.effect = .allow ∧ g.predicate = none := by
  change survey adminVerdict _ = _ ↔ _
  rw [survey_eq_ok]
  simp only [adminVerdict_eq_ok, exists_eq_left, true_and]
  constructor
  · rintro ⟨hall, g, hg, -⟩
    exact ⟨ne_nil_of_mem hg, hall⟩
  · rintro ⟨hne, hall⟩
    obtain ⟨g, hg⟩ := exists_mem_of_ne_nil _ hne
    exact ⟨hall, g, hg, hall g hg⟩

/-- Restricted to no workspace, domain, reference or scope. -/
def AclGrant.Unrestricted (g : AclGrant) : Prop :=
  g.workspace = none ∧ g.domain = none ∧ g.refGlob = none ∧ AclScope.all ∈ g.scopes

theorem AclGrant.Unrestricted.baseMatches {g : AclGrant} (hg : g.Unrestricted)
    {roles : SortedSet RoleId} (hs : g.subjectMatches principal roles)
    (hr : AclRight.admin ∈ g.rights) (resource : AclResource) (right : AclRight) :
    g.baseMatches principal roles resource right = true := by
  obtain ⟨hw, hd, hglob, hscope⟩ := hg
  have href : g.refMatches resource.refName = true := by
    unfold refMatches
    cases resource.refName <;> simp [hglob]
  have hany : g.scopes.any (·.covers resource.scope) = true :=
    any_eq_true.mpr ⟨.all, hscope, rfl⟩
  simp [AclGrant.baseMatches, hs, hw, hd, href, hany, hr]

variable (store principal roles)

/-- What global administration stands for: an unrestricted permitting grant and, where the policy
has only permitting grants without predicate, every right. -/
structure GlobalAdminSpec : Prop where
  granted : store.authorizeGlobalAdminWithRoles true principal roles = .ok () →
    ∃ g ∈ store.grants, g.effect = .allow ∧ g.subjectMatches principal (.ofList roles) ∧
      AclRight.admin ∈ g.rights ∧ g.Unrestricted
  covers : (∀ g ∈ store.grants, g.effect = .allow ∧ g.predicate = none) →
    store.authorizeGlobalAdminWithRoles true principal roles = .ok () →
    ∀ resource right,
      store.authorizeResourceWithRoles true principal roles resource right = .ok ()

/-- Where the grants that decide all permit, one of them is unrestricted. -/
def Backed : Prop :=
  (store.adminGrants principal (.ofList roles) ≠ [] ∧
    ∀ g ∈ store.adminGrants principal (.ofList roles), g.effect = .allow ∧ g.predicate = none) →
  ∃ g ∈ store.adminGrants principal (.ofList roles), g.refGlob = none ∧ AclScope.all ∈ g.scopes

variable {store principal roles}

theorem authorizeResource_of_unrestricted (hg : g ∈ store.grants)
    (hs : g.subjectMatches principal (.ofList roles)) (hr : AclRight.admin ∈ g.rights)
    (hu : g.Unrestricted) (hall : ∀ g ∈ store.grants, g.effect = .allow ∧ g.predicate = none)
    (resource : AclResource) (right : AclRight) :
    store.authorizeResourceWithRoles true principal roles resource right = .ok () := by
  refine survey_eq_ok.mpr ⟨fun g' hg' => ?_, g, mem_filter.mpr ⟨hg, ?_⟩, ?_⟩
  · obtain ⟨he, hp⟩ := hall g' (mem_filter.mp hg').1
    exact ⟨true, resourceVerdict_of_allow he hp⟩
  · exact hu.baseMatches hs hr resource right
  · exact resourceVerdict_of_allow (hall g hg).1 (hall g hg).2

/-- **Global administration stands for what it should exactly where it is backed.** -/
theorem globalAdminSpec_iff (store : AclStore) (principal : PrincipalId) (roles : List RoleId) :
    GlobalAdminSpec store principal roles ↔ Backed store principal roles := by
  constructor
  · intro h hok
    obtain ⟨g, hg, _, hs, hr, hw, hd, hglob, hscope⟩ :=
      h.granted (authorizeGlobalAdmin_eq_ok.mpr hok)
    exact ⟨g, mem_adminGrants.mpr ⟨hg, hw, hd, hr, hs⟩, hglob, hscope⟩
  · intro h
    have hgranted : store.authorizeGlobalAdminWithRoles true principal roles = .ok () →
        ∃ g ∈ store.grants, g.effect = .allow ∧ g.subjectMatches principal (.ofList roles) ∧
          AclRight.admin ∈ g.rights ∧ g.Unrestricted := by
      intro hok
      have hall := authorizeGlobalAdmin_eq_ok.mp hok
      obtain ⟨g, hg, hglob, hscope⟩ := h hall
      obtain ⟨hmem, hw, hd, hr, hs⟩ := mem_adminGrants.mp hg
      exact ⟨g, hmem, (hall.2 g hg).1, hs, hr, hw, hd, hglob, hscope⟩
    refine ⟨hgranted, fun hall hok => ?_⟩
    obtain ⟨g, hg, _, hs, hr, hu⟩ := hgranted hok
    exact authorizeResource_of_unrestricted hg hs hr hu hall

end Admin

namespace Sample

/-- The administration of the references called `x`, for everyone. -/
def narrow : AclGrant where
  subject := .everyone
  workspace := none
  domain := none
  refGlob := some "x"
  scopes := [.all]
  rights := .ofList [.admin]
  effect := .allow
  predicate := none

def someone : PrincipalId := .zero

/-- The grant is accepted and makes everyone a global administrator, who may still not read. -/
theorem narrow_global_admin : AclStore.new.grant narrow = .ok ⟨[narrow]⟩ ∧
      AclStore.authorizeGlobalAdminWithRoles ⟨[narrow]⟩ true someone [] = .ok () ∧
      AclStore.authorizeResourceWithRoles ⟨[narrow]⟩ true someone [] (.all someone .files) .read =
        .error (denied "acl default deny") ∧
      ¬ GlobalAdminSpec ⟨[narrow]⟩ someone [] := by
  have hok : AclStore.authorizeGlobalAdminWithRoles ⟨[narrow]⟩ true someone [] = .ok () := by
    decide +kernel
  refine ⟨by decide +kernel, hok, by decide +kernel, fun h => ?_⟩
  obtain ⟨g, hg, _, _, _, _, _, hglob, _⟩ := h.granted hok
  obtain rfl := mem_singleton.mp hg
  cases hglob

end Sample

end UldrenLoom.Acl
