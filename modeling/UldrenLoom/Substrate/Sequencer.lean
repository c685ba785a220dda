import UldrenLoom.Lib.Machine
import UldrenLoom.Vcs.Digest
import UldrenLoom.Vcs.Registry

/-!
# The local sequencer

A sequencer keeps a root, the next sequence number and a log of operations for each registered scope.
An operation is taken on if it starts from the current root, and its hooks succeed.

* **`intact_iff`**: a run is intact exactly if no scope is registered a second time with another root:
  `registerScope` replaces the root of a registered scope before it refuses.
* **`sequence_retry`**: a retry gets the operation that the first request got.
-/

namespace UldrenLoom.Substrate

open ByteString Fallible Vcs SortedMap

/-! ## Operations -/

/-- Who acts. -/
inductive ActorKind where
  | user
  | agent
  | service
deriving Repr, DecidableEq

/-- What is known of an agent that acts. -/
structure AgentIdentity where
  agentId : Text
  modelOrRuntime : Text
  operatorPrincipal : Option WorkspaceId
  sourceEntityIds : List Text
  toolCalls : List Text
  confidencePpm : Option UInt32
  policyLabels : List Text
  traceDigest : Option Digest
deriving DecidableEq

/-- An operation as it was taken on. -/
structure OperationEnvelope where
  workspaceId : Text
  appId : Text
  scopeId : Text
  operationId : Text
  operationKind : Text
  sequence : ℕ
  actorPrincipal : WorkspaceId
  actorKind : ActorKind
  timestampMs : UInt64
  idempotencyKey : Text
  baseRoot : Digest
  baseEntityVersion : Option Text
  targetEntityId : Option Text
  payloadDigest : Digest
  payload : Bytes
  policyLabels : List Text
  signature : Option Bytes
  agent : Option AgentIdentity
deriving DecidableEq

/-- What an operation is made from. -/
structure OperationEnvelopeInput where
  workspaceId : Text
  appId : Text
  scopeId : Text
  operationId : Text
  operationKind : Text
  sequence : ℕ
  actorPrincipal : WorkspaceId
  actorKind : ActorKind
  timestampMs : UInt64
  idempotencyKey : Text
  baseRoot : Digest
  baseEntityVersion : Option Text
  targetEntityId : Option Text
  payload : Bytes
  policyLabels : List Text
  signature : Option Bytes
  agent : Option AgentIdentity

def validateText (name : String) (value : Text) : Result Unit :=
  if (strBytes value).isEmpty then .error (.invalid (name ++ " must not be empty"))
  else if 512 < (strBytes value).length then .error (.invalid (name ++ " is too long"))
  else .ok ()

def optionalText (name : String) (value : Option Text) : Result (Option Text) := do
  value.forM (validateText name)
  return value

/-- Labels in order, each once. -/
def canonicalLabels (labels : List Text) : Result (List Text) := do
  labels.forM (validateText "policy label")
  return (SortedSet.ofList labels).elems

def normalizeAgent (agent : AgentIdentity) : Result AgentIdentity := do
  if agent.confidencePpm.any (1000000 < ·) then
    throw (.invalid "agent confidence_ppm exceeds 1000000")
  agent.sourceEntityIds.forM (validateText "source_entity_id")
  agent.toolCalls.forM (validateText "tool_call")
  let policyLabels ← canonicalLabels agent.policyLabels
  return { agent with policyLabels := policyLabels }

/-- An operation with its checks. -/
def OperationEnvelope.new (hash : Algo → Bytes → Digest) (algo : Algo)
    (input : OperationEnvelopeInput) : Result OperationEnvelope := do
  validateText "workspace_id" input.workspaceId
  validateText "app_id" input.appId
  validateText "scope_id" input.scopeId
  validateText "operation_id" input.operationId
  validateText "operation_kind" input.operationKind
  validateText "idempotency_key" input.idempotencyKey
  let baseEntityVersion ← optionalText "base_entity_version" input.baseEntityVersion
  let targetEntityId ← optionalText "target_entity_id" input.targetEntityId
  let policyLabels ← canonicalLabels input.policyLabels
  let agent ← input.agent.mapM normalizeAgent
  return {
    workspaceId := input.workspaceId
    appId := input.appId
    scopeId := input.scopeId
    operationId := input.operationId
    operationKind := input.operationKind
    sequence := input.sequence
    actorPrincipal := input.actorPrincipal
    actorKind := input.actorKind
    timestampMs := input.timestampMs
    idempotencyKey := input.idempotencyKey
    baseRoot := input.baseRoot
    baseEntityVersion := baseEntityVersion
    targetEntityId := targetEntityId
    payloadDigest := hash algo input.payload
    payload := input.payload
    policyLabels := policyLabels
    signature := input.signature
    agent := agent }

theorem OperationEnvelope.new_eq_ok {hash : Algo → Bytes → Digest} {algo : Algo}
    {input : OperationEnvelopeInput} {envelope : OperationEnvelope}
    (h : OperationEnvelope.new hash algo input = .ok envelope) :
    envelope.scopeId = input.scopeId ∧ envelope.sequence = input.sequence ∧
      envelope.baseRoot = input.baseRoot := by
  simp only [OperationEnvelope.new, bind_eq_ok] at h
  obtain ⟨_, -, _, -, _, -, _, -, _, -, _, -, _, -, _, -, _, -, _, -, h⟩ := h
  cases h
  exact ⟨rfl, rfl, rfl⟩

/-! ## The sequencer -/

/-- An operation to be taken on. -/
structure OperationDraft where
  workspaceId : Text
  appId : Text
  scopeId : Text
  operationId : Text
  operationKind : Text
  actorPrincipal : WorkspaceId
  actorKind : ActorKind
  timestampMs : UInt64
  idempotencyKey : Text
  baseRoot : Digest
  baseEntityVersion : Option Text
  targetEntityId : Option Text
  payload : Bytes
  policyLabels : List Text
  signature : Option Bytes
  agent : Option AgentIdentity

structure AliasRequest where
  kind : Text
  text : Text

structure AliasAssignment where
  kind : Text
  text : Text
  entityId : Text
deriving DecidableEq

structure OrderTokenRequest where
  listId : Text
  entityId : Text
  after : Option Text
  before : Option Text

structure OrderTokenAssignment where
  listId : Text
  entityId : Text
  token : Text
deriving DecidableEq

structure SequencerWakeup where
  scopeId : Text
  sequence : ℕ
  operationId : Text
  operationKind : Text
  rootAfter : Digest

/-- An operation of the log. -/
structure SequencedOperation where
  envelope : OperationEnvelope
  rootAfter : Digest
  aliases : List AliasAssignment
  orderTokens : List OrderTokenAssignment
deriving DecidableEq

structure SequenceRequest where
  draft : OperationDraft
  rootAfter : Digest
  aliasRequests : List AliasRequest
  orderTokenRequests : List OrderTokenRequest

/-- What the hooks of one call answer. -/
structure SequencerHooks where
  allocateAliases : OperationEnvelope → List AliasRequest → Result (List AliasAssignment)
  allocateOrderTokens :
    OperationEnvelope → List OrderTokenRequest → Result (List OrderTokenAssignment)
  wake : SequencerWakeup → Result Unit

def noopSequencerHooks : SequencerHooks where
  allocateAliases _ requests :=
    if requests.isEmpty then .ok [] else .error ⟨.unsupported, "alias allocation hook unavailable"⟩
  allocateOrderTokens _ requests :=
    if requests.isEmpty then .ok []
    else .error ⟨.unsupported, "order-token allocation hook unavailable"⟩
  wake _ := .ok ()

structure IdempotencyKey where
  scopeId : Text
  actorPrincipal : WorkspaceId
  idempotencyKey : Text
deriving DecidableEq

def IdempotencyKey.fields (k : IdempotencyKey) : Text ×ₗ WorkspaceId ×ₗ Text :=
  toLex (k.scopeId, toLex (k.actorPrincipal, k.idempotencyKey))

theorem IdempotencyKey.fields_injective : Function.Injective IdempotencyKey.fields := by
  rintro ⟨s, a, i⟩ ⟨s', a', i'⟩ h
  obtain ⟨rfl, rfl, rfl⟩ := h
  rfl

instance : LinearOrder IdempotencyKey :=
  LinearOrder.lift' IdempotencyKey.fields IdempotencyKey.fields_injective

structure LocalSequencer where
  rootByScope : SortedMap Text Digest
  nextSequenceByScope : SortedMap Text ℕ
  idempotency : SortedMap IdempotencyKey SequencedOperation
  logByScope : SortedMap Text (List SequencedOperation)
deriving DecidableEq

namespace LocalSequencer

def new : LocalSequencer := ⟨.empty, .empty, .empty, .empty⟩

/-- The root is replaced before a registered scope is refused. -/
def registerScope (q : LocalSequencer) (scopeId : Text) (root : Digest) :
    Result Unit × LocalSequencer :=
  match validateText "scope_id" scopeId with
  | .error e => (.error e, q)
  | .ok () =>
    let q1 := { q with rootByScope := q.rootByScope.insert scopeId root }
    if (q.rootByScope.get scopeId).isSome then
      (.error (.invalid "sequencer scope already registered"), q1)
    else (.ok (), { q1 with nextSequenceByScope := q.nextSequenceByScope.insert scopeId 1 })

def currentRoot (q : LocalSequencer) (scopeId : Text) : Result Digest :=
  (q.rootByScope.get scopeId).elim (.error (.notFound "sequencer scope not registered")) .ok

def operations (q : LocalSequencer) (scopeId : Text) : List SequencedOperation :=
  (q.logByScope.get scopeId).getD []

/-- What `sequence` does before it changes anything: an operation that is there already, or a new
one. -/
def prepare (hash : Algo → Bytes → Digest) (q : LocalSequencer) (algo : Algo)
    (request : SequenceRequest) (hooks : SequencerHooks) :
    Result (SequencedOperation ⊕ ℕ × SequencedOperation) := do
  let draft := request.draft
  validateText "scope_id" draft.scopeId
  match q.idempotency.get ⟨draft.scopeId, draft.actorPrincipal, draft.idempotencyKey⟩ with
  | some existing => return .inl existing
  | none =>
    let currentRoot ← q.currentRoot draft.scopeId
    if currentRoot ≠ draft.baseRoot then
      throw ⟨.conflict, "operation base root does not match sequencer root"⟩
    else
      let sequence ← (q.nextSequenceByScope.get draft.scopeId).elim
        (.error (.notFound "sequencer scope not registered")) .ok
      let envelope ← OperationEnvelope.new hash algo {
        workspaceId := draft.workspaceId
        appId := draft.appId
        scopeId := draft.scopeId
        operationId := draft.operationId
        operationKind := draft.operationKind
        sequence := sequence
        actorPrincipal := draft.actorPrincipal
        actorKind := draft.actorKind
        timestampMs := draft.timestampMs
        idempotencyKey := draft.idempotencyKey
        baseRoot := draft.baseRoot
        baseEntityVersion := draft.baseEntityVersion
        targetEntityId := draft.targetEntityId
        payload := draft.payload
        policyLabels := draft.policyLabels
        signature := draft.signature
        agent := draft.agent }
      let aliases ← hooks.allocateAliases envelope request.aliasRequests
      let orderTokens ← hooks.allocateOrderTokens envelope request.orderTokenRequests
      hooks.wake ⟨envelope.scopeId, envelope.sequence, envelope.operationId, envelope.operationKind,
        request.rootAfter⟩
      return .inr (sequence, ⟨envelope, request.rootAfter, aliases, orderTokens⟩)

/-- Take on an operation. A log has fewer than `2 ^ 64` operations, so that the next number does not
overflow. -/
def append (q : LocalSequencer) (key : IdempotencyKey) (sequence : ℕ)
    (result : SequencedOperation) : LocalSequencer where
  rootByScope := q.rootByScope.insert result.envelope.scopeId result.rootAfter
  nextSequenceByScope := q.nextSequenceByScope.insert result.envelope.scopeId (sequence + 1)
  idempotency := q.idempotency.insert key result
  logByScope := q.logByScope.insert result.envelope.scopeId
    (q.operations result.envelope.scopeId ++ [result])

def sequence (hash : Algo → Bytes → Digest) (q : LocalSequencer) (algo : Algo)
    (request : SequenceRequest) (hooks : SequencerHooks) :
    Result SequencedOperation × LocalSequencer :=
  match q.prepare hash algo request hooks with
  | .error e => (.error e, q)
  | .ok (.inl existing) => (.ok existing, q)
  | .ok (.inr (sequence, result)) =>
    let draft := request.draft
    (.ok result, q.append ⟨draft.scopeId, draft.actorPrincipal, draft.idempotencyKey⟩ sequence result)

end LocalSequencer

/-! ## Runs -/

inductive Call where
  | registerScope (scopeId : Text) (root : Digest)
  | sequence (algo : Algo) (request : SequenceRequest) (hooks : SequencerHooks)

/-- A sequencer, and the roots that scopes were registered with. -/
structure Traced where
  sequencer : LocalSequencer
  registered : SortedMap Text Digest
deriving DecidableEq

def Traced.new : Traced := ⟨.new, .empty⟩

def step (hash : Algo → Bytes → Digest) : Call → Traced → Option LoomError × Traced
  | .registerScope scopeId root, t =>
    match t.sequencer.registerScope scopeId root with
    | (.ok (), q) => (none, ⟨q, t.registered.insert scopeId root⟩)
    | (.error e, q) => (some e, ⟨q, t.registered⟩)
  | .sequence algo request hooks, t =>
    match t.sequencer.sequence hash algo request hooks with
    | (.ok _, q) => (none, ⟨q, t.registered⟩)
    | (.error e, q) => (some e, ⟨q, t.registered⟩)

/-- Operations with the numbers from `n` on, each on the root after the one before it. -/
def Chain : Digest → ℕ → List SequencedOperation → Digest → Prop
  | root, _, [], current => current = root
  | root, n, op :: ops, current =>
    op.envelope.sequence = n ∧ op.envelope.baseRoot = root ∧ Chain op.rootAfter (n + 1) ops current

instance Chain.decidable : ∀ root n ops current, Decidable (Chain root n ops current)
  | root, _, [], current => inferInstanceAs (Decidable (current = root))
  | _, n, op :: ops, current =>
    have := Chain.decidable op.rootAfter (n + 1) ops current
    inferInstanceAs (Decidable (_ ∧ _ ∧ _))

theorem Chain.append {root current : Digest} {n : ℕ} {ops : List SequencedOperation}
    (h : Chain root n ops current) {op : SequencedOperation}
    (hseq : op.envelope.sequence = n + ops.length) (hbase : op.envelope.baseRoot = current) :
    Chain root n (ops ++ [op]) op.rootAfter := by
  induction ops generalizing root n with
  | nil => exact ⟨hseq, hbase.trans h, rfl⟩
  | cons a ops ih =>
    refine ⟨h.1, h.2.1, ih h.2.2 ?_⟩
    rw [hseq, List.length_cons]
    omega

/-- Every registered scope has a chain from its root to the current one, and no other scope has
anything. -/
structure Traced.Chained (t : Traced) : Prop where
  unknown : ∀ scopeId, t.registered.get scopeId = none →
    t.sequencer.rootByScope.get scopeId = none ∧ t.sequencer.operations scopeId = []
  linked : ∀ scopeId root, t.registered.get scopeId = some root →
    ∃ current, t.sequencer.rootByScope.get scopeId = some current ∧
      Chain root 1 (t.sequencer.operations scopeId) current

/-- A call that fails changes nothing, and after it every scope has its chain. -/
structure Intact (hash : Algo → Bytes → Digest) (t : Traced) (call : Call) : Prop where
  unchanged : ∀ e, (step hash call t).1 = some e → (step hash call t).2.sequencer = t.sequencer
  chained : (step hash call t).2.Chained

/-- A scope is not registered a second time with another root. -/
def Honest (t : Traced) : Call → Prop
  | .registerScope scopeId root => ∀ current ∈ t.sequencer.rootByScope.get scopeId, current = root
  | .sequence .. => True

/-! ## The invariant -/

/-- A chain for each registered scope, and its next number. -/
structure Traced.Sound (t : Traced) : Prop where
  chained : t.Chained
  valid : ∀ scopeId root, t.registered.get scopeId = some root →
    validateText "scope_id" scopeId = .ok ()
  next : ∀ scopeId root, t.registered.get scopeId = some root →
    t.sequencer.nextSequenceByScope.get scopeId =
      some ((t.sequencer.operations scopeId).length + 1)

theorem Traced.sound_new : Traced.new.Sound :=
  ⟨⟨fun _ _ => ⟨rfl, rfl⟩, fun _ _ h => (nomatch h)⟩, fun _ _ h => (nomatch h),
    fun _ _ h => (nomatch h)⟩

section Steps

variable {hash : Algo → Bytes → Digest} {t : Traced} {q : LocalSequencer} {scopeId : Text}

theorem step_register_invalid {e : LoomError} (root : Digest)
    (hv : validateText "scope_id" scopeId = .error e) :
    step hash (.registerScope scopeId root) t = (some e, t) := by
  unfold step LocalSequencer.registerScope
  dsimp only
  rw [hv]

theorem step_register_known {current : Digest} (root : Digest)
    (hv : validateText "scope_id" scopeId = .ok ())
    (hc : t.sequencer.rootByScope.get scopeId = some current) :
    step hash (.registerScope scopeId root) t =
      (some (.invalid "sequencer scope already registered"),
        ⟨{ t.sequencer with rootByScope := t.sequencer.rootByScope.insert scopeId root },
          t.registered⟩) := by
  unfold step LocalSequencer.registerScope
  dsimp only
  rw [hv, hc]
  rfl

theorem step_register_new (root : Digest) (hv : validateText "scope_id" scopeId = .ok ())
    (hc : t.sequencer.rootByScope.get scopeId = none) :
    step hash (.registerScope scopeId root) t = (none, ⟨{ t.sequencer with
        rootByScope := t.sequencer.rootByScope.insert scopeId root
        nextSequenceByScope := t.sequencer.nextSequenceByScope.insert scopeId 1 },
        t.registered.insert scopeId root⟩) := by
  unfold step LocalSequencer.registerScope
  dsimp only
  rw [hv, hc]
  rfl

theorem Traced.Sound.registered_of_root (h : t.Sound) {current : Digest}
    (hc : t.sequencer.rootByScope.get scopeId = some current) :
    ∃ root, t.registered.get scopeId = some root ∧
      Chain root 1 (t.sequencer.operations scopeId) current := by
  cases hr : t.registered.get scopeId with
  | none =>
    rw [(h.chained.unknown scopeId hr).1] at hc
    cases hc
  | some root =>
    obtain ⟨current', hc', hchain⟩ := h.chained.linked scopeId root hr
    rw [hc] at hc'
    cases hc'
    exact ⟨root, rfl, hchain⟩

theorem LocalSequencer.prepare_new {algo : Algo} {request : SequenceRequest} {hooks : SequencerHooks}
    {n : ℕ} {result : SequencedOperation}
    (h : q.prepare hash algo request hooks = .ok (.inr (n, result))) :
    q.rootByScope.get result.envelope.scopeId = some result.envelope.baseRoot ∧
      q.nextSequenceByScope.get result.envelope.scopeId = some n ∧ result.envelope.sequence = n := by
  obtain ⟨_, -, h⟩ := of_bind h
  split at h
  · cases h
  obtain ⟨current, hcurrent, h⟩ := of_bind h
  obtain ⟨hbase, h⟩ := ite_error_eq_ok.mp h
  obtain ⟨n', hn, h⟩ := of_bind h
  obtain ⟨envelope, henvelope, h⟩ := of_bind h
  obtain ⟨aliases, -, h⟩ := of_bind h
  obtain ⟨orderTokens, -, h⟩ := of_bind h
  obtain ⟨_, -, h⟩ := of_bind h
  cases h
  obtain ⟨hscope, hsequence, hroot⟩ := OperationEnvelope.new_eq_ok henvelope
  rw [hscope, hroot, ← not_not.mp hbase]
  refine ⟨?_, ?_, hsequence⟩
  · exact elim_eq_ok hcurrent
  · exact elim_eq_ok hn

theorem LocalSequencer.operations_append (key : IdempotencyKey) (n : ℕ) (result : SequencedOperation)
    (scopeId : Text) :
    (q.append key n result).operations scopeId =
      if result.envelope.scopeId = scopeId then q.operations scopeId ++ [result]
      else q.operations scopeId := by
  change ((q.logByScope.insert _ _).get scopeId).getD [] = _
  rw [get_insert]
  split_ifs with hs
  · rw [hs]
    rfl
  · rfl

theorem Traced.Sound.append (h : t.Sound) {key : IdempotencyKey} {result : SequencedOperation}
    (hroot : t.sequencer.rootByScope.get result.envelope.scopeId = some result.envelope.baseRoot)
    (hnext : t.sequencer.nextSequenceByScope.get result.envelope.scopeId =
      some result.envelope.sequence) :
    Traced.Sound ⟨t.sequencer.append key result.envelope.sequence result, t.registered⟩ := by
  obtain ⟨root, hreg, hchain⟩ := h.registered_of_root hroot
  have hlen := h.next _ root hreg
  rw [hnext, Option.some.injEq] at hlen
  refine ⟨⟨fun scopeId hr => ?_, fun scopeId root' hr => ?_⟩, h.valid, fun scopeId root' hr => ?_⟩
  · have hne : result.envelope.scopeId ≠ scopeId := by
      rintro rfl
      rw [hreg] at hr
      cases hr
    obtain ⟨hroot', hops⟩ := h.chained.unknown scopeId hr
    rw [LocalSequencer.operations_append, if_neg hne]
    exact ⟨by rw [LocalSequencer.append, get_insert, if_neg hne, hroot'], hops⟩
  · rw [LocalSequencer.operations_append, LocalSequencer.append, get_insert]
    by_cases hs : result.envelope.scopeId = scopeId
    · subst hs
      rw [if_pos rfl, if_pos rfl]
      rw [hreg] at hr
      cases hr
      exact ⟨_, rfl, hchain.append (by omega) rfl⟩
    · rw [if_neg hs, if_neg hs]
      exact h.chained.linked scopeId root' hr
  · rw [LocalSequencer.operations_append, LocalSequencer.append, get_insert]
    by_cases hs : result.envelope.scopeId = scopeId
    · subst hs
      rw [if_pos rfl, if_pos rfl, List.length_append, List.length_singleton, hlen]
    · rw [if_neg hs, if_neg hs]
      exact h.next scopeId root' hr

theorem Traced.Sound.register (h : t.Sound) (hvalid : validateText "scope_id" scopeId = .ok ())
    (hnew : t.sequencer.rootByScope.get scopeId = none) (root : Digest) :
    Traced.Sound ⟨{ t.sequencer with
      rootByScope := t.sequencer.rootByScope.insert scopeId root
      nextSequenceByScope := t.sequencer.nextSequenceByScope.insert scopeId 1 },
      t.registered.insert scopeId root⟩ := by
  have hunknown : t.registered.get scopeId = none := by
    cases hr : t.registered.get scopeId with
    | none => rfl
    | some root' =>
      obtain ⟨current, hc, -⟩ := h.chained.linked scopeId root' hr
      rw [hnew] at hc
      cases hc
  have hops := (h.chained.unknown scopeId hunknown).2
  refine ⟨⟨fun scopeId' hr => ?_, fun scopeId' root' hr => ?_⟩, fun scopeId' root' hr => ?_,
    fun scopeId' root' hr => ?_⟩ <;>
    dsimp only at hr ⊢ <;> rw [get_insert] at hr <;> try rw [get_insert]
  · split_ifs at hr with hs
    rw [if_neg hs]
    exact h.chained.unknown scopeId' hr
  · split_ifs at hr with hs
    · subst hs
      cases hr
      refine ⟨root, if_pos rfl, ?_⟩
      change Chain root 1 (t.sequencer.operations scopeId) root
      rw [hops]
      rfl
    · rw [if_neg hs]
      exact h.chained.linked scopeId' root' hr
  · split_ifs at hr with hs
    · exact hs ▸ hvalid
    · exact h.valid scopeId' root' hr
  · split_ifs at hr with hs
    · subst hs
      rw [if_pos rfl]
      change _ = some ((t.sequencer.operations scopeId).length + 1)
      rw [hops]
      rfl
    · rw [if_neg hs]
      exact h.next scopeId' root' hr

/-- **An honest call keeps the invariant, and changes nothing if it fails.** -/
theorem Traced.Sound.after (h : t.Sound) {call : Call} (hhonest : Honest t call) :
    (step hash call t).2.Sound ∧
      ∀ e, (step hash call t).1 = some e → (step hash call t).2.sequencer = t.sequencer := by
  cases call with
  | registerScope scopeId root =>
    cases hv : validateText "scope_id" scopeId with
    | error e =>
      rw [step_register_invalid root hv]
      exact ⟨h, fun _ _ => rfl⟩
    | ok _ =>
      cases hc : t.sequencer.rootByScope.get scopeId with
      | none =>
        rw [step_register_new root hv hc]
        exact ⟨h.register hv hc root, fun _ he => nomatch he⟩
      | some current =>
        have hsame : t.sequencer.rootByScope.insert scopeId root = t.sequencer.rootByScope := by
          refine ext_get fun k => ?_
          rw [get_insert]
          split_ifs with hk
          · rw [← hk, hc, hhonest current hc]
          · rfl
        rw [step_register_known root hv hc, hsame]
        exact ⟨h, fun _ _ => rfl⟩
  | sequence algo request hooks =>
    unfold step LocalSequencer.sequence
    dsimp only
    cases hp : t.sequencer.prepare hash algo request hooks with
    | error e => exact ⟨h, fun _ _ => rfl⟩
    | ok prepared =>
      rcases prepared with existing | ⟨n, result⟩
      · exact ⟨h, fun _ _ => rfl⟩
      · obtain ⟨hroot, hnext, rfl⟩ := LocalSequencer.prepare_new hp
        exact ⟨h.append hroot hnext, fun _ he => nomatch he⟩

theorem honest_of_unchanged {call : Call} (h : t.Sound)
    (hu : ∀ e, (step hash call t).1 = some e → (step hash call t).2.sequencer = t.sequencer) :
    Honest t call := by
  cases call with
  | sequence => trivial
  | registerScope scopeId root =>
    intro current hc
    obtain ⟨root', hr, -⟩ := h.registered_of_root hc
    rw [step_register_known root (h.valid scopeId root' hr) hc] at hu
    have hget := congrArg (fun q => q.rootByScope.get scopeId) (hu _ rfl)
    rw [get_insert, if_pos rfl, hc] at hget
    exact (Option.some.inj hget).symm

/-- **A run is intact exactly if no scope is registered a second time with another root.** -/
theorem intact_iff (hash : Algo → Bytes → Digest) (l : List Call) :
    Machine.Along (step hash) (Intact hash) l .new ↔ Machine.Along (step hash) Honest l .new := by
  refine Machine.along_congr (P := Traced.Sound) (fun t call h => ⟨fun hi => ?_, fun hh => ?_⟩)
    (fun t call hi h => ?_) Traced.sound_new
  · exact honest_of_unchanged h hi.unchanged
  · obtain ⟨hs, hu⟩ := h.after hh
    exact ⟨hu, hs.chained⟩
  · exact (h.after (honest_of_unchanged h hi.unchanged)).1

/-! ## Retries -/

/-- What a request is recognised by. -/
def OperationDraft.key (draft : OperationDraft) : IdempotencyKey :=
  ⟨draft.scopeId, draft.actorPrincipal, draft.idempotencyKey⟩

variable {algo : Algo} {request : SequenceRequest} {hooks : SequencerHooks}
  {op : SequencedOperation} {q' : LocalSequencer}

/-- What is under the key of a request, before and after. -/
theorem LocalSequencer.sequence_key (h : q.sequence hash algo request hooks = (.ok op, q')) :
    validateText "scope_id" request.draft.scopeId = .ok () ∧
      q'.idempotency.get request.draft.key = some op ∧
      (q' = q ∨ q.idempotency.get request.draft.key = none ∧
        q'.idempotency = q.idempotency.insert request.draft.key op) := by
  unfold sequence at h
  cases hp : q.prepare hash algo request hooks with
  | error e => simp [hp] at h
  | ok r =>
    rw [hp] at h
    obtain ⟨_, hvalid, hp⟩ := of_bind hp
    split at hp
    next existing hget =>
      cases hp
      cases h
      exact ⟨hvalid, hget, .inl rfl⟩
    next hnone =>
      obtain ⟨_, -, hp⟩ := of_bind hp
      obtain ⟨n, -, hp⟩ := of_bind (ite_error_eq_ok.mp hp).2
      simp only [bind_eq_ok] at hp
      obtain ⟨envelope, -, aliases, -, tokens, -, _, -, hp⟩ := hp
      cases hp
      cases h
      exact ⟨hvalid, (get_insert ..).trans (if_pos rfl), .inr ⟨hnone, rfl⟩⟩

/-- **What is under a key stays there.** -/
theorem idempotency_step {key : IdempotencyKey} (call : Call)
    (h : t.sequencer.idempotency.get key = some op) :
    (step hash call t).2.sequencer.idempotency.get key = some op := by
  cases call with
  | registerScope scopeId root =>
    unfold step LocalSequencer.registerScope
    dsimp only
    cases validateText "scope_id" scopeId with
    | error e => exact h
    | ok _ => cases t.sequencer.rootByScope.get scopeId <;> exact h
  | sequence algo request hooks =>
    unfold step
    dsimp only
    rcases hs : t.sequencer.sequence hash algo request hooks with ⟨e | op', q'⟩
    · unfold LocalSequencer.sequence at hs
      split at hs <;> cases hs
      exact h
    · obtain ⟨-, -, rfl | ⟨hnone, hq⟩⟩ := LocalSequencer.sequence_key hs
      · exact h
      · dsimp only
        rw [hq, get_insert, if_neg, h]
        rintro rfl
        cases hnone.symm.trans h

/-- **A retry gets the operation that the first request got, and changes nothing**, whatever was
called in between, and whatever else it asks for. -/
theorem sequence_retry (h : q.sequence hash algo request hooks = (.ok op, q'))
    (registered : SortedMap Text Digest) (l : List Call) (algo' : Algo) {request' : SequenceRequest}
    (hooks' : SequencerHooks) (hkey : request'.draft.key = request.draft.key) :
    let q'' := (Machine.run (step hash) l ⟨q', registered⟩).sequencer
    q''.sequence hash algo' request' hooks' = (.ok op, q'') := by
  intro q''
  obtain ⟨hvalid, hget, -⟩ := LocalSequencer.sequence_key h
  have hrun : q''.idempotency.get request'.draft.key = some op := by
    rw [hkey]
    exact Machine.run_invariant (G := fun _ _ => True)
      (P := fun t : Traced => t.sequencer.idempotency.get request.draft.key = some op)
      (fun t call _ => idempotency_step call) (Machine.along_of_forall (fun _ _ => trivial) l _) hget
  have hscope : request'.draft.scopeId = request.draft.scopeId :=
    congrArg IdempotencyKey.scopeId hkey
  have hprepare : q''.prepare hash algo' request' hooks' = .ok (.inl op) := by
    unfold OperationDraft.key at hrun
    simp only [LocalSequencer.prepare, hscope, hvalid, ok_bind]
    rw [← hscope, hrun]
    rfl
  rw [LocalSequencer.sequence, hprepare]

end Steps

namespace Sample

def digest (b : UInt8) : Digest := ⟨List.replicate 32 b, List.length_replicate ..⟩

def hash : Algo → Bytes → Digest := fun _ _ => digest 0

def draft (baseRoot : Digest) : OperationDraft where
  workspaceId := "w"
  appId := "a"
  scopeId := "s"
  operationId := "o"
  operationKind := "k"
  actorPrincipal := .zero
  actorKind := .user
  timestampMs := 0
  idempotencyKey := "i"
  baseRoot := baseRoot
  baseEntityVersion := none
  targetEntityId := none
  payload := []
  policyLabels := []
  signature := none
  agent := none

/-- A scope is registered, is refused with another root, and takes on an operation on that root. -/
def registeredTwice : List Call :=
  [.registerScope "s" (digest 1), .registerScope "s" (digest 2),
    .sequence .blake3 ⟨draft (digest 2), digest 3, [], []⟩ noopSequencerHooks]

/-- **The refused registration changes the root, and the chain starts from it.** -/
theorem registeredTwice_not_intact :
    ¬ Machine.Along (step hash) (Intact hash) registeredTwice .new ∧
      (Machine.run (step hash) registeredTwice .new).registered.get "s" = some (digest 1) ∧
      ¬ Chain (digest 1) 1
        ((Machine.run (step hash) registeredTwice .new).sequencer.operations "s") (digest 3) := by
  refine ⟨fun h => ?_, by decide +kernel, by decide +kernel⟩
  have hsame := h.2.1.unchanged (.invalid "sequencer scope already registered") (by decide +kernel)
  exact absurd hsame (by decide +kernel)

def first : Result SequencedOperation × LocalSequencer :=
  (LocalSequencer.new.registerScope "s" (digest 1)).2.sequence hash .blake3
    ⟨draft (digest 1), digest 2, [], []⟩ noopSequencerHooks

/-- Another operation on the result of the first. -/
def second : Call := .sequence .blake3
  ⟨{ draft (digest 2) with operationId := "p", idempotencyKey := "j" }, digest 3, [], []⟩
  noopSequencerHooks

/-- The first operation is asked for again after the second, and for another root. -/
theorem sequence_retry_second : let q := (Machine.run (step hash) [second] ⟨first.2, .empty⟩).sequencer
    q.rootByScope.get "s" = some (digest 3) ∧ ∃ op, first.1 = .ok op ∧
      q.sequence hash .blake3 ⟨draft (digest 4), digest 5, [], []⟩ noopSequencerHooks = (.ok op, q) := by
  intro q
  obtain ⟨op, hop⟩ : ∃ op, first.1 = .ok op := ⟨_, rfl⟩
  have hfirst : first = (.ok op, first.2) := Prod.ext hop rfl
  exact ⟨by decide +kernel, op, hop,
    sequence_retry hfirst .empty [second] .blake3 noopSequencerHooks rfl⟩

end Sample

end UldrenLoom.Substrate
