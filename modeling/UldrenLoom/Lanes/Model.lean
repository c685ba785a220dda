import UldrenLoom.Lib.Machine
import UldrenLoom.Acl.Policy

/-!
# Lanes

A lane is a list of tickets with a status, kept in order by opaque keys. The current record of each
lane is stored under the lane's id in its workspace; so are its active assignment and its secondary
indexes. A hosted operation reads the current lanes, plans its writes and commits them at once.

A commit fails without a trace, or fails and leaves its writes behind; a committed operation can still
fail when it notifies.
-/

namespace UldrenLoom.Lanes

open ByteString Fallible Vcs Acl

/-! ## Order keys -/

def digits : Bytes := strBytes "0123456789ABCDEFGHIJKLMNOPQRSTUVWXYZabcdefghijklmnopqrstuvwxyz"

def base : ℕ := 62

def digitIndex (byte : UInt8) : Option ℕ := digits.idxOf? byte

/-- The digit at a position, the least one past the end. -/
def digitAt (key : Bytes) (i : ℕ) : ℕ := (key[i]?.bind digitIndex).getD 0

structure OrderKey where
  text : Text
deriving DecidableEq

instance : LinearOrder OrderKey := LinearOrder.lift' OrderKey.text fun a b h => by
  cases a
  cases b
  congr

def OrderKey.parse (value : Text) : Result OrderKey :=
  if (strBytes value).isEmpty then .error (.invalid "order key must not be empty")
  else if (strBytes value).any fun byte => (digitIndex byte).isNone then
    .error (.invalid "order key must contain only base-62 alphabet characters")
  else if (strBytes value).getLast? = digits[0]? then
    .error (.invalid "order key must not end in the minimum digit")
  else .ok ⟨value⟩

/-- The loop from position `i` on. Past the ends of both bounds it does not end. -/
def keyBetweenFrom : ℕ → Bytes → Option Bytes → ℕ → Bytes → Option Bytes
  | 0, _, _, _, _ => none
  | fuel + 1, lo, hi, i, result =>
    let dLo := digitAt lo i
    let dHi := hi.elim base (digitAt · i)
    if dLo = dHi then keyBetweenFrom fuel lo hi (i + 1) (result ++ [digits.getD dLo 0])
    else
      let mid := (dLo + dHi) / 2
      if dLo < mid then some (result ++ [digits.getD mid 0])
      else keyBetweenFrom fuel lo none (i + 1) (result ++ [digits.getD dLo 0])

def keyBetween (lo : Bytes) (hi : Option Bytes) : Option Bytes :=
  keyBetweenFrom (lo.length + (hi.elim 0 List.length) + 1) lo hi 0 []

def OrderKey.between (lo hi : Option OrderKey) : Option OrderKey := do
  let generated ← keyBetween (lo.elim [] fun key => strBytes key.text)
    (hi.map fun key => strBytes key.text)
  let text ← strOfBytes? generated
  return ⟨text⟩

/-! ## Lanes -/

inductive LaneStatus where
  | idle
  | ready
  | working
  | waitingForReview
  | feedbackAvailable
  | waitingForDecision
  | blocked
  | paused
  | closed
deriving Repr, DecidableEq

def LaneStatus.parse (value : String) : Result LaneStatus :=
  match value with
  | "idle" => .ok .idle
  | "ready" => .ok .ready
  | "working" => .ok .working
  | "waiting_for_review" => .ok .waitingForReview
  | "feedback_available" => .ok .feedbackAvailable
  | "waiting_for_decision" => .ok .waitingForDecision
  | "blocked" => .ok .blocked
  | "paused" => .ok .paused
  | "closed" => .ok .closed
  | _ => .error (.invalid "unsupported lane status")

inductive LaneKind where
  | assignment
  | tracking
deriving Repr, DecidableEq

def LaneKind.asStr : LaneKind → Text
  | .assignment => "assignment"
  | .tracking => "tracking"

def LaneKind.parse (value : String) : Result LaneKind :=
  match value with
  | "assignment" => .ok .assignment
  | "tracking" => .ok .tracking
  | _ => .error (.invalid "unsupported lane kind")

structure LaneTicket where
  ticketId : Text
  orderKey : Text
deriving DecidableEq

/-- A lane. Its kind and status are texts in the source that every check parses. -/
structure Lane where
  laneId : Text
  laneKey : Text
  title : Text
  description : Text
  laneKind : LaneKind
  ownerPrincipal : Option Text
  laneStatus : LaneStatus
  laneTickets : List LaneTicket
  activeTicketId : Option Text
  statusReport : Text
  reviewerFeedback : Text
  updatedAt : UInt64
  updatedBy : Text
deriving DecidableEq

def isControl (c : Char) : Bool := c.val < 0x20 || (0x7f ≤ c.val && c.val ≤ 0x9f)

def validateId (label : String) (value : Text) : Result Unit :=
  if (strBytes value).isEmpty || 512 < (strBytes value).length then
    .error (.invalid (label ++ " is invalid"))
  else if (String.toList value).any isControl then .error (.invalid (label ++ " is invalid"))
  else .ok ()

def proseMaxBytes : ℕ := 16 * 1024

def validateProse (label : String) (value : Text) : Result Unit :=
  if proseMaxBytes < (strBytes value).length then .error (.invalid (label ++ " is too long"))
  else .ok ()

/-- Distinct tickets with ascending keys, after those seen and a previous key. -/
def validateLaneTicketsFrom : List Text → Option OrderKey → List LaneTicket → Result Unit
  | _, _, [] => .ok ()
  | seen, previous, ticket :: tickets => do
    validateId "lane ticket_id" ticket.ticketId
    if ticket.ticketId ∈ seen then throw (.invalid "lane_tickets must not repeat ticket_id")
    else
      let key ← OrderKey.parse ticket.orderKey
      if previous.any (key ≤ ·) then throw (.invalid "lane_tickets must be ordered by order_key")
      else validateLaneTicketsFrom (ticket.ticketId :: seen) (some key) tickets

def validateLaneTickets (tickets : List LaneTicket) : Result Unit :=
  validateLaneTicketsFrom [] none tickets

def Lane.hasTicket (lane : Lane) (ticketId : Text) : Bool :=
  lane.laneTickets.any (·.ticketId = ticketId)

def Lane.validate (lane : Lane) : Result Unit := do
  validateId "lane_id" lane.laneId
  validateId "lane_key" lane.laneKey
  validateProse "title" lane.title
  validateProse "description" lane.description
  lane.ownerPrincipal.forM (validateId "owner_principal")
  validateProse "status_report" lane.statusReport
  validateProse "reviewer_feedback" lane.reviewerFeedback
  validateId "updated_by" lane.updatedBy
  validateLaneTickets lane.laneTickets
  lane.activeTicketId.forM fun active => do
    validateId "active_ticket_id" active
    if lane.hasTicket active then return ()
    else throw (.invalid "active_ticket_id must reference a lane ticket")

/-- An open assignment lane: the ones that tickets belong to. -/
def Lane.isOpenAssignment (lane : Lane) : Bool :=
  lane.laneKind = .assignment && lane.laneStatus ≠ .closed

/-- Where a ticket is put. -/
inductive LaneTicketPlacement where
  | first
  | last
  | before (anchor : Text)
  | after (anchor : Text)
deriving Repr, DecidableEq

def placementIndex (tickets : List LaneTicket) : LaneTicketPlacement → Result ℕ
  | .first => .ok 0
  | .last => .ok tickets.length
  | .before anchor => (tickets.findIdx? (·.ticketId = anchor)).elim
      (.error (.notFound "lane placement anchor ticket not found")) .ok
  | .after anchor => (tickets.findIdx? (·.ticketId = anchor)).elim
      (.error (.notFound "lane placement anchor ticket not found")) fun i => .ok (i + 1)

/-- Put a ticket into a lane. The keys of a stored lane ascend, so that there is one in between. -/
def placeLaneTicket (lane : Lane) (ticketId : Text) (placement : LaneTicketPlacement) :
    Result Lane := do
  validateId "lane ticket_id" ticketId
  if lane.hasTicket ticketId then throw (.invalid "lane_tickets must not repeat ticket_id")
  else
    let idx ← placementIndex lane.laneTickets placement
    let loTicket := if idx = 0 then none else lane.laneTickets[idx - 1]?
    let lo ← loTicket.mapM fun ticket => OrderKey.parse ticket.orderKey
    let hi ← lane.laneTickets[idx]?.mapM fun ticket => OrderKey.parse ticket.orderKey
    let key ← (OrderKey.between lo hi).elim (.error (.invalid "order keys do not ascend")) .ok
    return { lane with laneTickets := lane.laneTickets.insertIdx idx ⟨ticketId, key.text⟩ }

def Lane.removeTicket (lane : Lane) (ticketId : Text) : Lane :=
  { lane with
    laneTickets := lane.laneTickets.filter (·.ticketId ≠ ticketId)
    activeTicketId := if lane.activeTicketId = some ticketId then none else lane.activeTicketId }

/-! ## The current records of a workspace -/

/-- The secondary indexes of lanes. -/
inductive IndexName where
  | laneKind
  | ownerPrincipal
  | laneTicket
deriving Repr, DecidableEq

theorem indexName_ctorIdx_injective : Function.Injective IndexName.ctorIdx := by
  intro a b
  cases a <;> cases b <;> simp [IndexName.ctorIdx]

instance : LinearOrder IndexName := LinearOrder.lift' IndexName.ctorIdx indexName_ctorIdx_injective

abbrev IndexKey := IndexName ×ₗ Text ×ₗ Text

/-- The current lanes, their active assignments and their live index entries. Deleted lanes and
assignments leave a tombstone. -/
structure LaneTable where
  lanes : SortedMap Text (Option Lane)
  assignments : SortedMap Text (Option Bytes)
  indexes : SortedMap IndexKey Bytes
deriving DecidableEq

def LaneTable.empty : LaneTable := ⟨.empty, .empty, .empty⟩

variable (t : LaneTable)

def LaneTable.lane (laneId : Text) : Option Lane := (t.lanes.get laneId).join

def validateSegment (name : String) (value : Text) : Result Unit :=
  if (strBytes value).isEmpty then .error (.invalid (name ++ " must not be empty"))
  else if (strBytes value).contains 0 then .error (.invalid (name ++ " must not contain nul bytes"))
  else .ok ()

def LaneTable.read (laneId : Text) : Result (Option Lane) := do
  validateSegment "record_id" laneId
  return t.lane laneId

def LaneTable.current : List Lane :=
  (t.lanes.entries.filterMap Prod.snd).mergeSort fun left right =>
    toLex (left.laneKey, left.laneId) ≤ toLex (right.laneKey, right.laneId)

inductive LaneMutationMode where
  | create
  | update
deriving Repr, DecidableEq

/-- What a transaction writes. -/
inductive LaneWrite where
  | lane (laneId : Text) (record : Option Lane) (indexes : List (IndexKey × Option Bytes))
  | assignment (laneId : Text) (record : Option Bytes)

def laneWorkflowSecondaryIndexes (lane : Lane) : List (IndexKey × Bytes) :=
  [(toLex (.laneKind, toLex (lane.laneKind.asStr, lane.laneId)), strBytes lane.laneId)] ++
    lane.ownerPrincipal.toList.map (fun owner =>
      (toLex (.ownerPrincipal, toLex (owner, lane.laneId)), strBytes lane.laneId)) ++
    lane.laneTickets.map fun ticket =>
      (toLex (.laneTicket, toLex (ticket.ticketId, lane.laneId)), strBytes ticket.orderKey)

/-- The entries of a lane are put, and those of the lane before it are deleted unless put again. -/
def laneWorkflowSecondaryIndexUpdates (prior : Option Lane) (lane : Lane) :
    List (IndexKey × Option Bytes) :=
  let puts := laneWorkflowSecondaryIndexes lane
  let deletes := (prior.elim [] laneWorkflowSecondaryIndexes).filter
    fun entry => entry.1 ∉ puts.map Prod.fst
  puts.map (fun entry => (entry.1, some entry.2)) ++ deletes.map fun entry => (entry.1, none)

def laneCurrentWrites (lane : Lane) (prior : Option Lane) : List LaneWrite :=
  let record := .lane lane.laneId (some lane) (laneWorkflowSecondaryIndexUpdates prior lane)
  let hadActive := prior.any (·.activeTicketId.isSome)
  match lane.laneKind, lane.activeTicketId with
  | .assignment, some active => [record, .assignment lane.laneId (some (strBytes active))]
  | _, active =>
    if hadActive then
      -- The record of a tracking lane that has an active ticket is put, without a payload.
      [record, .assignment lane.laneId (if active.isNone then none else some [])]
    else [record]

def laneDeleteWrites (lane : Lane) : List LaneWrite :=
  .lane lane.laneId none
      ((laneWorkflowSecondaryIndexes lane).map fun entry => (entry.1, none)) ::
    if lane.activeTicketId.isSome then [.assignment lane.laneId none] else []

def LaneTable.putIndex (entry : IndexKey × Option Bytes) : LaneTable :=
  { t with indexes := entry.2.elim (t.indexes.erase entry.1) (t.indexes.insert entry.1) }

def LaneTable.put : LaneWrite → LaneTable
  | .lane laneId record indexes =>
    indexes.foldl putIndex { t with lanes := t.lanes.insert laneId record }
  | .assignment laneId record => { t with assignments := t.assignments.insert laneId record }

def LaneTable.apply (writes : List LaneWrite) : LaneTable := writes.foldl put t

/-! ## The hosted operations -/

/-- Who calls, and the policy: what a loom decides access with. -/
structure Identity where
  authenticatedMode : Bool
  effectivePrincipal : Result PrincipalId
  effectiveRoles : PrincipalId → Result (List RoleId)

structure Access where
  identity : Option Identity
  acl : AclStore
  evaluator : Option AclPredicateEvaluator

def Access.effectivePrincipal (access : Access) : Result (Option PrincipalId) :=
  access.identity.mapM Identity.effectivePrincipal

def Access.authorizeResource (access : Access) (resource : AclResource) (right : AclRight) :
    Result Unit :=
  match access.identity with
  | none => .ok ()
  | some identity => do
    let principal ← identity.effectivePrincipal
    let roles ← identity.effectiveRoles principal
    access.acl.authorizeResourceWithRolesAndEvaluator identity.authenticatedMode principal roles
      resource right access.evaluator

def Access.authorizeDomain (access : Access) (ns : WorkspaceId) (domain : AclDomain)
    (right : AclRight) : Result Unit :=
  access.authorizeResource (.all ns domain) right

section Operations

variable (access : Access) (ns : WorkspaceId) (t : LaneTable)

def getLane (laneId : Text) : Result (Option Lane) := do
  access.authorizeDomain ns .tickets .read
  t.read laneId

def listLanes : Result (List Lane) := do
  access.authorizeDomain ns .tickets .read
  return t.current

/-- The first of a lane's tickets that is among others. -/
def sharedTicket (tickets : List Text) (lane : Lane) : Option Text :=
  (lane.laneTickets.map (·.ticketId)).find? (· ∈ tickets)

def alreadyBelongs (ticketId laneId : String) : LoomError :=
  .invalid ("ticket " ++ ticketId ++ " already belongs to assignment lane " ++ laneId)

/-- The check that no ticket is in two open assignment lanes. -/
def validateAssignmentLaneMembership (candidate : Lane) : Result Unit :=
  if !candidate.isOpenAssignment then .ok ()
  else
    let tickets := candidate.laneTickets.map (·.ticketId)
    if tickets.isEmpty then .ok ()
    else do
      let lanes ← listLanes access ns t
      lanes.forM fun lane =>
        if lane.laneId = candidate.laneId || !lane.isOpenAssignment then .ok ()
        else match sharedTicket tickets lane with
          | none => .ok ()
          | some ticketId => .error (alreadyBelongs ticketId lane.laneId)

def prepareLaneCurrentTransaction (lane : Lane) (mode : LaneMutationMode) :
    Result (List LaneWrite) := do
  lane.validate
  let prior ← t.read lane.laneId
  match mode with
  | .create =>
    -- A tombstone counts: the id of a deleted lane stays taken.
    if prior.isSome || (t.lanes.get lane.laneId).isSome then
      throw ⟨.alreadyExists, "lane already exists"⟩
    else
      let _ ← access.effectivePrincipal
      return laneCurrentWrites lane none
  | .update =>
    match prior with
    | none => throw (.notFound "lane not found")
    | some prior =>
      let _ ← access.effectivePrincipal
      return laneCurrentWrites lane (some prior)

def createLane (lane : Lane) : Result (List LaneWrite) := do
  access.authorizeDomain ns .tickets .write
  lane.validate
  validateAssignmentLaneMembership access ns t lane
  prepareLaneCurrentTransaction access t lane .create

def putLane (lane : Lane) : Result (List LaneWrite) := do
  access.authorizeDomain ns .tickets .write
  validateAssignmentLaneMembership access ns t lane
  prepareLaneCurrentTransaction access t lane .update

def putLaneCurrentRecord (lane : Lane) : Result (List LaneWrite) :=
  prepareLaneCurrentTransaction access t lane .update

/-- An assignment lane that is not closed. -/
def checkTransferLane (lane : Lane) : Result Unit :=
  if lane.laneKind ≠ .assignment then .error (.invalid "lane transfer requires assignment lanes")
  else if lane.laneStatus = .closed then .error (.invalid "closed lanes cannot transfer tickets")
  else .ok ()

def transferAssignmentLaneTicket (sourceLaneId targetLaneId ticketId : Text) (updatedAt : UInt64)
    (updatedBy : Text) : Result (List LaneWrite × Lane) := do
  access.authorizeDomain ns .tickets .write
  if sourceLaneId = targetLaneId then throw (.invalid "source and target lanes must differ")
  else
    let source ← (← t.read sourceLaneId).elim (.error (.notFound "source lane not found")) .ok
    let target ← (← t.read targetLaneId).elim (.error (.notFound "target lane not found")) .ok
    checkTransferLane source
    checkTransferLane target
    if !source.hasTicket ticketId then throw (.notFound "ticket is not in source lane")
    else
      let placed ← placeLaneTicket target ticketId .last
      let source' := { source.removeTicket ticketId with updatedAt := updatedAt, updatedBy := updatedBy }
      let target' := { placed with updatedAt := updatedAt, updatedBy := updatedBy }
      source'.validate
      target'.validate
      let _ ← access.effectivePrincipal
      return (laneCurrentWrites source' (some source) ++ laneCurrentWrites target' (some target),
        target')

def deleteLane (laneId : Text) (updatedAt : UInt64) (updatedBy : Text) :
    Result (List LaneWrite × Lane) := do
  access.authorizeDomain ns .tickets .write
  let prior ← (← t.read laneId).elim (.error (.notFound "lane not found")) .ok
  if prior.laneStatus ≠ .closed then throw (.invalid "only closed lanes can be deleted")
  else
    let _ ← access.effectivePrincipal
    return (laneDeleteWrites prior, { prior with updatedAt := updatedAt, updatedBy := updatedBy })

end Operations

structure HostedLaneCreate where
  laneId : Text
  laneKey : Text
  title : Text
  description : Text
  laneKind : Text
  ownerPrincipal : Option Text
  laneStatus : Text
  laneTickets : List LaneTicket
  activeTicketId : Option Text
  statusReport : Text
  reviewerFeedback : Text
  updatedBy : Text

structure HostedLaneUpdate where
  laneId : Text
  title : Option Text
  description : Option Text
  laneStatus : Option Text
  statusReport : Option Text
  reviewerFeedback : Option Text
  updatedBy : Text

inductive Op where
  | create (input : HostedLaneCreate)
  | update (input : HostedLaneUpdate)
  | addTicket (laneId ticketId : Text) (placement : LaneTicketPlacement) (updatedBy : Text)
  | removeTicket (laneId ticketId updatedBy : Text)
  | transferTicket (sourceLaneId targetLaneId ticketId updatedBy : Text)
  | delete (laneId updatedBy : Text)

def HostedLaneCreate.lane (input : HostedLaneCreate) (now : UInt64) : Result Lane := do
  let laneKind ← LaneKind.parse input.laneKind
  let laneStatus ← LaneStatus.parse input.laneStatus
  let lane : Lane := {
    laneId := input.laneId
    laneKey := input.laneKey
    title := input.title
    description := input.description
    laneKind := laneKind
    ownerPrincipal := input.ownerPrincipal
    laneStatus := laneStatus
    laneTickets := input.laneTickets
    activeTicketId := input.activeTicketId
    statusReport := input.statusReport
    reviewerFeedback := input.reviewerFeedback
    updatedAt := now
    updatedBy := input.updatedBy }
  lane.validate
  return lane

def HostedLaneUpdate.change (input : HostedLaneUpdate) (now : UInt64) (lane : Lane) :
    Result Lane := do
  let laneStatus ← input.laneStatus.elim (.ok lane.laneStatus) LaneStatus.parse
  return { lane with
    title := input.title.getD lane.title
    description := input.description.getD lane.description
    laneStatus := laneStatus
    statusReport := input.statusReport.getD lane.statusReport
    reviewerFeedback := input.reviewerFeedback.getD lane.reviewerFeedback
    updatedAt := now
    updatedBy := input.updatedBy }

def HostedLaneUpdate.isEmpty (input : HostedLaneUpdate) : Bool :=
  input.title.isNone && input.description.isNone && input.laneStatus.isNone &&
    input.statusReport.isNone && input.reviewerFeedback.isNone

section Plan

variable (access : Access) (ns : WorkspaceId) (now : UInt64) (t : LaneTable)

/-- Read a lane, change it and store it with `put`. -/
def mutate (laneId : Text) (mutation : Lane → Result Lane)
    (put : Lane → Result (List LaneWrite)) : Result (List LaneWrite × Lane) := do
  let lane ← (← getLane access ns t laneId).elim (.error (.notFound "lane not found")) .ok
  let lane' ← mutation lane
  let writes ← put lane'
  return (writes, lane')

/-- An operation up to its commit: what it writes, and the lane it returns. -/
def plan : Op → Result (List LaneWrite × Lane)
  | .create input => do
    let lane ← input.lane now
    let writes ← createLane access ns t lane
    return (writes, lane)
  | .update input =>
    if input.isEmpty then .error (.invalid "lane update requires at least one field")
    else mutate access ns t input.laneId (input.change now) (putLaneCurrentRecord access t)
  | .addTicket laneId ticketId placement updatedBy =>
    mutate access ns t laneId (fun lane => do
      let placed ← placeLaneTicket lane ticketId placement
      return { placed with updatedAt := now, updatedBy := updatedBy }) (putLane access ns t)
  | .removeTicket laneId ticketId updatedBy =>
    mutate access ns t laneId
      (fun lane => .ok { lane.removeTicket ticketId with updatedAt := now, updatedBy := updatedBy })
      (putLane access ns t)
  | .transferTicket sourceLaneId targetLaneId ticketId updatedBy =>
    transferAssignmentLaneTicket access ns t sourceLaneId targetLaneId ticketId now updatedBy
  | .delete laneId updatedBy => deleteLane access ns t laneId now updatedBy

end Plan

/-- How a commit ends. -/
inductive Commit where
  | done
  | refused (e : LoomError)
  | stranded (e : LoomError)

def Op.notifies : Op → Bool
  | .update _ | .delete .. => false
  | _ => true

/-- An operation of a caller, with the time, the end of its commit and the error of its
notification. -/
structure Request where
  access : Access
  workspace : WorkspaceId
  now : UInt64
  op : Op
  commit : Commit
  notification : Option LoomError

abbrev Tables := SortedMap WorkspaceId LaneTable

def Tables.table (s : Tables) (ns : WorkspaceId) : LaneTable := (SortedMap.get s ns).getD .empty

def Request.plan (r : Request) (s : Tables) : Result (List LaneWrite × Lane) :=
  Lanes.plan r.access r.workspace r.now (s.table r.workspace) r.op

def Tables.commit (s : Tables) (ns : WorkspaceId) (writes : List LaneWrite) : Tables :=
  SortedMap.insert s ns ((s.table ns).apply writes)

def step (r : Request) (s : Tables) : Result Lane × Tables :=
  match r.plan s with
  | .error e => (.error e, s)
  | .ok (writes, lane) =>
    match r.commit with
    | .refused e => (.error e, s)
    | .stranded e => (.error e, s.commit r.workspace writes)
    | .done =>
      match r.notification with
      | some e => (if r.op.notifies then .error e else .ok lane, s.commit r.workspace writes)
      | none => (.ok lane, s.commit r.workspace writes)

end UldrenLoom.Lanes
