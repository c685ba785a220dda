import UldrenLoom.Lib.Hex
import UldrenLoom.Vcs.Object

/-!
# Workspaces

The registry of the workspaces of an engine: for each its name, its facets and its refs.

* **`updateBranch_ok_iff`**, **`tip_updateBranch`**: when a branch moves, and that nothing else
  does.
-/

namespace UldrenLoom.Vcs

open ByteString Fallible

/-- The id of a workspace: sixteen bytes. -/
structure WorkspaceId where
  bytes : Bytes
  length_bytes : bytes.length = 16
deriving Repr, DecidableEq

theorem WorkspaceId.bytes_injective : Function.Injective WorkspaceId.bytes := by
  rintro ⟨a, _⟩ ⟨b, _⟩ h
  obtain rfl : a = b := h
  rfl

def WorkspaceId.zero : WorkspaceId := ⟨List.replicate 16 0, rfl⟩

instance : LinearOrder WorkspaceId := LinearOrder.lift' WorkspaceId.bytes WorkspaceId.bytes_injective

/-- The text of a workspace id: groups of 4, 2, 2, 2 and 6 bytes. -/
def WorkspaceId.text (id : WorkspaceId) : Path :=
  let hex (i n : ℕ) := Hex.encode ((id.bytes.drop i).take n)
  hex 0 4 ++ '-' :: hex 4 2 ++ '-' :: hex 6 2 ++ '-' :: hex 8 2 ++ '-' :: hex 10 6

instance : ToString WorkspaceId := ⟨fun id => String.ofList id.text⟩

/-- The kinds of data a workspace can hold. -/
inductive FacetKind where
  | files
  | vcs
  | sql
  | kv
  | document
  | vector
  | graph
  | columnar
  | queue
  | timeSeries
  | cas
  | ledger
  | program
  | calendar
  | contacts
  | mail
  | search
  | dataframe
  | metrics
  | logs
  | traces
  | inference
deriving Repr, DecidableEq

theorem FacetKind.ctorIdx_injective : Function.Injective FacetKind.ctorIdx := by
  intro a b
  cases a <;> cases b <;> simp [FacetKind.ctorIdx]

instance : LinearOrder FacetKind := LinearOrder.lift' FacetKind.ctorIdx FacetKind.ctorIdx_injective

/-- One workspace. -/
structure Record (D : Type) where
  name : Path
  facets : SortedSet FacetKind
  branches : SortedMap Path D
  tags : SortedMap Path D
  head : Path
deriving DecidableEq

/-- The workspaces, with an index by name, in which names that are no longer used can stay. -/
structure Registry (D : Type) where
  byId : SortedMap WorkspaceId (Record D)
  byName : SortedMap Path WorkspaceId
  indexed : ∀ {id r}, byId.get id = some r → byName.get r.name = some id
  listed : ∀ {name id}, byName.get name = some id → byId.get id ≠ none

namespace Registry

variable {D : Type}

def defaultName : Path := "Default".toList

def defaultBranch : Path := "main".toList

def new : Registry D := ⟨SortedMap.empty, SortedMap.empty, by simp, by simp⟩

instance : Inhabited (Registry D) := ⟨new⟩

def isControl (c : Char) : Bool := c.toNat < 0x20 || 0x7f ≤ c.toNat && c.toNat < 0xa0

/-- Reject names that are not one plain segment. -/
def validateRefName (kind : String) (name : Path) : Result Unit :=
  if name = [] ∨ name = "HEAD".toList ∨ "refs/".toList <+: name ∨ name.head? = some '.' ∨
      name.getLast? = some '.' ∨ "..".toList <:+: name ∨ '/' ∈ name ∨ '\\' ∈ name ∨
      name.any isControl then
    .error (.invalid (kind ++ " name " ++ name.quote ++ " is reserved or invalid"))
  else .ok ()

variable (reg : Registry D)

def record (id : WorkspaceId) : Result (Record D) :=
  match reg.byId.get id with
  | some r => .ok r
  | none => .error (.notFound ("workspace " ++ toString id))

/-- Put a record under an id, and its name, which must be new, into the index. -/
def insertRecord (id : WorkspaceId) (r : Record D)
    (h : reg.byName.get r.name = none) : Registry D where
  byId := reg.byId.insert id r
  byName := reg.byName.insert r.name id
  indexed := by
    intro id' r' hr'
    rw [SortedMap.get_insert] at hr' ⊢
    split_ifs at hr' with hid
    · rw [← Option.some.inj hr', if_pos rfl, hid]
    · have hold := reg.indexed hr'
      rw [if_neg fun hn => by simp [← hn, h] at hold, hold]
  listed := by
    intro name id' hn
    rw [SortedMap.get_insert] at hn ⊢
    split_ifs at hn with hname
    · simp [Option.some.inj hn]
    · split_ifs
      · simp
      · exact reg.listed hn

def createWorkspace (name : Option Path) (id : WorkspaceId) : Result (Registry D) :=
  let name := name.getD defaultName
  if hn : reg.byName.get name = none then
    if reg.byId.get id = none then
      .ok (reg.insertRecord id
        ⟨name, SortedSet.empty, SortedMap.empty, SortedMap.empty, defaultBranch⟩ hn)
    else .error ⟨.alreadyExists, "workspace id " ++ toString id ++ " already in use"⟩
  else .error ⟨.alreadyExists, "workspace " ++ name.quote ++ " already exists"⟩

/-- Replace a record by one of the same name. -/
def setRecord (id : WorkspaceId) (r : Record D)
    (h : ∃ r', reg.byId.get id = some r' ∧ r'.name = r.name) : Registry D where
  byId := reg.byId.insert id r
  byName := reg.byName
  indexed := by
    intro id' r' hr'
    obtain ⟨r0, hr0, hname⟩ := h
    rw [SortedMap.get_insert] at hr'
    split_ifs at hr' with hid
    · rw [← Option.some.inj hr', ← hname, reg.indexed hr0, hid]
    · exact reg.indexed hr'
  listed := by
    intro name id' hn
    rw [SortedMap.get_insert]
    split_ifs
    · simp
    · exact reg.listed hn

def headBranch (id : WorkspaceId) : Result Path :=
  return (← reg.record id).head

def branchTip (id : WorkspaceId) (branch : Path) : Result (Option D) := do
  validateRefName "branch" branch
  return (← reg.record id).branches.get branch

def tagTarget (id : WorkspaceId) (name : Path) : Result (Option D) := do
  validateRefName "tag" name
  return (← reg.record id).tags.get name

def debugTip [ToString D] : Option D → String
  | none => "None"
  | some d => "Some(Digest(" ++ (toString d).quote ++ "))"

/-- Move a branch, if its tip is the expected one. -/
def updateBranch [DecidableEq D] [ToString D] (id : WorkspaceId) (branch : Path)
    (expected : Option D) (new : D) : Result (Registry D) := do
  validateRefName "branch" branch
  match h : reg.byId.get id with
  | none => .error (.notFound ("workspace " ++ toString id))
  | some r =>
    if r.branches.get branch ≠ expected then
      .error ⟨.casMismatch, "branch " ++ branch.quote ++ ": expected " ++ debugTip expected ++
        ", found " ++ debugTip (r.branches.get branch)⟩
    else
      .ok (reg.setRecord id { r with branches := r.branches.insert branch new } ⟨r, h, rfl⟩)

variable {reg : Registry D} {id : WorkspaceId}

theorem record_eq_ok {r : Record D} : reg.record id = .ok r ↔ reg.byId.get id = some r := by
  unfold record
  cases reg.byId.get id <;> simp

variable {branch : Path}

theorem branchTip_eq_ok {tip : Option D} :
    reg.branchTip id branch = .ok tip ↔ validateRefName "branch" branch = .ok () ∧
      ∃ r, reg.byId.get id = some r ∧ r.branches.get branch = tip := by
  rw [branchTip, bind_eq_ok]
  constructor
  · rintro ⟨⟨⟩, hv, h⟩
    obtain ⟨r, hr, htip⟩ := of_bind h
    exact ⟨hv, r, record_eq_ok.mp hr, Except.ok.inj htip⟩
  · rintro ⟨hv, r, hr, rfl⟩
    exact ⟨(), hv, bind_eq_ok.mpr ⟨r, record_eq_ok.mpr hr, rfl⟩⟩

variable {expected : Option D}

/-- **A branch moves exactly if its tip is the expected one**, and only its record changes. -/
theorem updateBranch_ok_iff [DecidableEq D] [ToString D] {reg' : Registry D} {new : D} :
    reg.updateBranch id branch expected new = .ok reg' ↔
      reg.branchTip id branch = .ok expected ∧ ∃ r, reg.byId.get id = some r ∧
        reg'.byId = reg.byId.insert id { r with branches := r.branches.insert branch new } ∧
        reg'.byName = reg.byName := by
  rw [updateBranch, bind_eq_ok, branchTip_eq_ok]
  constructor
  · rintro ⟨⟨⟩, hv, h⟩
    split at h
    · exact absurd h (by simp)
    · next r hr =>
      split_ifs at h with htip
      cases h
      exact ⟨⟨hv, r, hr, not_not.mp htip⟩, r, hr, rfl, rfl⟩
  · rintro ⟨⟨hv, r, hr, htip⟩, r', hr', hid, hname⟩
    obtain rfl : r = r' := Option.some.inj (hr.symm.trans hr')
    refine ⟨(), hv, ?_⟩
    split
    · next h => exact absurd (hr.symm.trans h) (by simp)
    · next r0 h =>
      obtain rfl : r = r0 := Option.some.inj (hr.symm.trans h)
      rw [if_neg (not_not.mpr htip)]
      obtain ⟨_, _, _⟩ := reg'
      subst hid hname
      rfl

theorem exists_updateBranch [DecidableEq D] [ToString D] (new : D)
    (h : reg.branchTip id branch = .ok expected) :
    ∃ reg', reg.updateBranch id branch expected new = .ok reg' := by
  obtain ⟨-, r, hr, -⟩ := branchTip_eq_ok.mp h
  exact ⟨reg.setRecord id { r with branches := r.branches.insert branch new } ⟨r, hr, rfl⟩,
    updateBranch_ok_iff.mpr ⟨h, r, hr, rfl, rfl⟩⟩

def tip (id : WorkspaceId) (branch : Path) : Option D :=
  (reg.byId.get id).bind (·.branches.get branch)

theorem tip_of_branchTip {t : Option D} (h : reg.branchTip id branch = .ok t) :
    reg.tip id branch = t := by
  obtain ⟨-, r, hr, ht⟩ := branchTip_eq_ok.mp h
  rw [tip, hr, ← ht]
  rfl

/-- **Moving a branch changes its tip and no other.** -/
theorem tip_updateBranch [DecidableEq D] [ToString D] {reg' : Registry D} {new : D}
    (h : reg.updateBranch id branch expected new = .ok reg') (id' : WorkspaceId) (branch' : Path) :
    reg'.tip id' branch' =
      if id = id' ∧ branch = branch' then some new else reg.tip id' branch' := by
  obtain ⟨-, r, hr, hid, -⟩ := updateBranch_ok_iff.mp h
  rw [tip, hid, SortedMap.get_insert, tip]
  by_cases hid' : id = id'
  · subst hid'
    simp [hr]
  · simp [hid']

end Registry

end UldrenLoom.Vcs
