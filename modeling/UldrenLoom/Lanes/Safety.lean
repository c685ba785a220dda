import UldrenLoom.Lanes.Model

/-!
# Tickets in one lane, and who may change lanes

* **`exclusive_iff`**: along a run no ticket is in two open assignment lanes exactly if every
  committed update leaves a lane that `Fits` the others.
* **`authorized_iff`**: who changes a lane may write, exactly if this holds of updates; an update
  stores its lane without asking for the right to write.
-/

namespace UldrenLoom.Lanes

open ByteString Fallible Vcs Acl List SortedMap

/-! ## What is stored -/

section Store

variable (t : LaneTable)

theorem lanes_putIndexes (indexes : List (IndexKey × Option Bytes)) :
    (indexes.foldl LaneTable.putIndex t).lanes = t.lanes := by
  induction indexes generalizing t with
  | nil => rfl
  | cons entry indexes ih => exact ih _

theorem lanes_apply_current (lane : Lane) (prior : Option Lane) :
    (t.apply (laneCurrentWrites lane prior)).lanes = t.lanes.insert lane.laneId (some lane) := by
  unfold laneCurrentWrites
  dsimp only
  split
  · exact lanes_putIndexes ..
  · split_ifs <;> exact lanes_putIndexes ..

theorem lanes_apply_delete (lane : Lane) :
    (t.apply (laneDeleteWrites lane)).lanes = t.lanes.insert lane.laneId none := by
  unfold laneDeleteWrites
  split_ifs
  · exact lanes_putIndexes ..
  · exact lanes_putIndexes ..

variable {t}

theorem lane_of_insert {t' : LaneTable} {laneId : Text} {record : Option Lane}
    (h : t'.lanes = t.lanes.insert laneId record) (id : Text) :
    t'.lane id = if laneId = id then record else t.lane id := by
  unfold LaneTable.lane
  rw [h, get_insert]
  split_ifs <;> rfl

theorem apply_append (a b : List LaneWrite) : t.apply (a ++ b) = (t.apply a).apply b :=
  foldl_append

theorem mem_current {lane : Lane} : lane ∈ t.current ↔ ∃ id, t.lane id = some lane := by
  unfold LaneTable.current LaneTable.lane
  rw [mem_mergeSort, mem_filterMap]
  constructor
  · rintro ⟨⟨id, record⟩, hmem, rfl⟩
    exact ⟨id, by rw [get_eq_some.mpr hmem]; rfl⟩
  · rintro ⟨id, hid⟩
    have hget := Option.join_eq_some_iff.mp hid
    exact ⟨(id, some lane), get_eq_some.mp hget, rfl⟩

end Store

/-! ## What an operation has checked -/

/-- A lane is not open for assignments, or shares no ticket with another one that is. -/
def Fits (t : LaneTable) (lane : Lane) : Prop :=
  lane.isOpenAssignment → ∀ id other, t.lane id = some other → other.laneId ≠ lane.laneId →
    other.isOpenAssignment → ∀ ticketId, other.hasTicket ticketId → ¬ lane.hasTicket ticketId

theorem hasTicket_iff {lane : Lane} {ticketId : Text} :
    lane.hasTicket ticketId ↔ ticketId ∈ lane.laneTickets.map (·.ticketId) := by
  simp [Lane.hasTicket]

section Plans

variable {access : Access} {ns : WorkspaceId} {now : UInt64} {t : LaneTable} {lane : Lane}

theorem fits_of_membership (h : validateAssignmentLaneMembership access ns t lane = .ok ()) :
    Fits t lane := by
  intro hopen id other hother hne hotherOpen ticketId hmem hlane
  unfold validateAssignmentLaneMembership at h
  rw [hopen] at h
  simp only [Bool.not_true, Bool.false_eq_true, if_false] at h
  rw [hasTicket_iff] at hmem hlane
  rw [if_neg (by rw [List.isEmpty_iff]; exact List.ne_nil_of_mem hlane)] at h
  obtain ⟨lanes, hlanes, h⟩ := of_bind h
  obtain ⟨_, -, hlanes⟩ := of_bind hlanes
  cases hlanes
  have hchecked := forM_eq_ok h other (mem_current.mpr ⟨id, hother⟩)
  rw [hotherOpen, decide_eq_false hne] at hchecked
  simp only [Bool.not_true, Bool.or_self, Bool.false_eq_true, if_false] at hchecked
  split at hchecked
  · rename_i hnone
    exact (List.find?_eq_none.mp hnone ticketId hmem) (decide_eq_true hlane)
  · cases hchecked

theorem removeTicket_spec (lane : Lane) (ticketId : Text) :
    (lane.removeTicket ticketId).laneId = lane.laneId ∧
      (lane.removeTicket ticketId).isOpenAssignment = lane.isOpenAssignment ∧
      ∀ x, (lane.removeTicket ticketId).hasTicket x → lane.hasTicket x ∧ x ≠ ticketId := by
  refine ⟨rfl, rfl, fun x hx => ?_⟩
  rw [hasTicket_iff] at hx ⊢
  obtain ⟨ticket, hticket, rfl⟩ := mem_map.mp hx
  obtain ⟨hmem, hne⟩ := mem_filter.mp hticket
  exact ⟨mem_map_of_mem hmem, of_decide_eq_true hne⟩

theorem placeLaneTicket_spec {placed : Lane} {ticketId : Text} {placement : LaneTicketPlacement}
    (h : placeLaneTicket lane ticketId placement = .ok placed) :
    placed.laneId = lane.laneId ∧ placed.isOpenAssignment = lane.isOpenAssignment ∧
      ∀ x, placed.hasTicket x → lane.hasTicket x ∨ x = ticketId := by
  obtain ⟨_, -, h⟩ := of_bind h
  obtain ⟨-, h⟩ := ite_error_eq_ok.mp h
  obtain ⟨idx, -, h⟩ := of_bind h
  obtain ⟨lo, -, h⟩ := of_bind h
  obtain ⟨hi, -, h⟩ := of_bind h
  obtain ⟨key, -, h⟩ := of_bind h
  cases h
  refine ⟨rfl, rfl, fun x hx => ?_⟩
  rw [hasTicket_iff] at hx ⊢
  obtain ⟨ticket, hticket, rfl⟩ := mem_map.mp hx
  rcases eq_or_mem_of_mem_insertIdx hticket with rfl | hmem
  · exact .inr rfl
  · exact .inl (mem_map_of_mem hmem)

variable (t) in
/-- What is known of the lanes of a transfer, before and after it. -/
structure Transferred (a b ticketId : Text) (source target source' target' : Lane) : Prop where
  fromLane : t.lane a = some source
  toLane : t.lane b = some target
  isOpen : source.isOpenAssignment
  hasTicket : source.hasTicket ticketId
  taken : source'.laneId = source.laneId ∧ ∀ x, source'.hasTicket x → source.hasTicket x ∧ x ≠ ticketId
  placed : target'.laneId = target.laneId ∧ target'.isOpenAssignment = target.isOpenAssignment ∧
    ∀ x, target'.hasTicket x → target.hasTicket x ∨ x = ticketId

variable (access ns t) in
/-- What an operation writes, and what it has checked before. -/
inductive Planned : Op → List LaneWrite → Lane → Prop
  | stored {op : Op} {lane : Lane} (prior : Option Lane) (hop : ∀ input, op ≠ .update input)
      (hwrite : access.authorizeDomain ns .tickets .write = .ok ()) (hfits : Fits t lane) :
      Planned op (laneCurrentWrites lane prior) lane
  | updated {input : HostedLaneUpdate} {lane : Lane} (prior : Option Lane) :
      Planned (.update input) (laneCurrentWrites lane prior) lane
  | transferred {a b ticketId updatedBy : Text} {source target source' target' : Lane}
      (hwrite : access.authorizeDomain ns .tickets .write = .ok ())
      (htransfer : Transferred t a b ticketId source target source' target') :
      Planned (.transferTicket a b ticketId updatedBy)
        (laneCurrentWrites source' (some source) ++ laneCurrentWrites target' (some target)) target'
  | deleted {laneId updatedBy : Text} {lane : Lane} (prior : Lane)
      (hwrite : access.authorizeDomain ns .tickets .write = .ok ()) :
      Planned (.delete laneId updatedBy) (laneDeleteWrites prior) lane

variable {laneId : Text}

theorem read_eq_ok {lane : Option Lane} (h : t.read laneId = .ok lane) : lane = t.lane laneId := by
  obtain ⟨_, -, h⟩ := of_bind h
  cases h
  rfl

variable {writes : List LaneWrite}

theorem prepare_eq_ok {mode : LaneMutationMode}
    (h : prepareLaneCurrentTransaction access t lane mode = .ok writes) :
    ∃ prior, writes = laneCurrentWrites lane prior := by
  obtain ⟨_, -, h⟩ := of_bind h
  obtain ⟨prior, -, h⟩ := of_bind h
  cases mode with
  | create =>
    obtain ⟨-, h⟩ := ite_error_eq_ok.mp h
    obtain ⟨_, -, h⟩ := of_bind h
    cases h
    exact ⟨none, rfl⟩
  | update =>
    cases prior with
    | none => cases h
    | some prior =>
      obtain ⟨_, -, h⟩ := of_bind h
      cases h
      exact ⟨some prior, rfl⟩

theorem createLane_eq_ok (h : createLane access ns t lane = .ok writes) :
    access.authorizeDomain ns .tickets .write = .ok () ∧ Fits t lane ∧
      ∃ prior, writes = laneCurrentWrites lane prior := by
  obtain ⟨_, hauth, h⟩ := of_bind h
  obtain ⟨_, -, h⟩ := of_bind h
  obtain ⟨_, hfits, h⟩ := of_bind h
  exact ⟨hauth, fits_of_membership hfits, prepare_eq_ok h⟩

theorem putLane_eq_ok (h : putLane access ns t lane = .ok writes) :
    access.authorizeDomain ns .tickets .write = .ok () ∧ Fits t lane ∧
      ∃ prior, writes = laneCurrentWrites lane prior := by
  obtain ⟨_, hauth, h⟩ := of_bind h
  obtain ⟨_, hfits, h⟩ := of_bind h
  exact ⟨hauth, fits_of_membership hfits, prepare_eq_ok h⟩

theorem mutate_eq_ok {mutation : Lane → Result Lane}
    {put : Lane → Result (List LaneWrite)}
    (h : mutate access ns t laneId mutation put = .ok (writes, lane)) : put lane = .ok writes := by
  obtain ⟨_, -, h⟩ := of_bind h
  obtain ⟨prior, -, h⟩ := of_bind h
  obtain ⟨lane', -, h⟩ := of_bind h
  obtain ⟨writes', hput, h⟩ := of_bind h
  cases h
  exact hput

theorem transfer_planned {a b ticketId updatedBy : Text}
    (h : transferAssignmentLaneTicket access ns t a b ticketId now updatedBy = .ok (writes, lane)) :
    Planned access ns t (.transferTicket a b ticketId updatedBy) writes lane := by
  obtain ⟨_, hauth, h⟩ := of_bind h
  obtain ⟨-, h⟩ := ite_error_eq_ok.mp h
  obtain ⟨_, hsource, h⟩ := of_bind h
  obtain ⟨source, hs, h⟩ := of_bind h
  obtain ⟨_, htarget, h⟩ := of_bind h
  obtain ⟨target, ht, h⟩ := of_bind h
  obtain ⟨_, hopen, h⟩ := of_bind h
  obtain ⟨_, -, h⟩ := of_bind h
  obtain ⟨hticket, h⟩ := ite_error_eq_ok.mp h
  obtain ⟨placed, hplaced, h⟩ := of_bind h
  obtain ⟨_, -, h⟩ := of_bind h
  obtain ⟨_, -, h⟩ := of_bind h
  obtain ⟨_, -, h⟩ := of_bind h
  cases h
  obtain rfl := read_eq_ok hsource
  obtain rfl := read_eq_ok htarget
  refine .transferred hauth ⟨elim_eq_ok hs, elim_eq_ok ht, ?_, ?_, ?_, ?_⟩
  · unfold checkTransferLane at hopen
    split_ifs at hopen with hkind hstatus
    simp [Lane.isOpenAssignment, not_not.mp hkind, hstatus]
  · simpa using hticket
  · obtain ⟨hid, -, hmem⟩ := removeTicket_spec source ticketId
    exact ⟨hid, hmem⟩
  · obtain ⟨hid, hsame, hmem⟩ := placeLaneTicket_spec hplaced
    exact ⟨hid, hsame, hmem⟩

theorem delete_planned {updatedBy : Text}
    (h : deleteLane access ns t laneId now updatedBy = .ok (writes, lane)) :
    Planned access ns t (.delete laneId updatedBy) writes lane := by
  obtain ⟨_, hauth, h⟩ := of_bind h
  obtain ⟨_, -, h⟩ := of_bind h
  obtain ⟨prior, -, h⟩ := of_bind h
  obtain ⟨-, h⟩ := ite_error_eq_ok.mp h
  obtain ⟨_, -, h⟩ := of_bind h
  cases h
  exact .deleted prior hauth

/-- **What an operation has checked when it commits.** -/
theorem planned_of_plan {op : Op} (h : plan access ns now t op = .ok (writes, lane)) :
    Planned access ns t op writes lane := by
  cases op with
  | create input =>
    obtain ⟨lane', -, h⟩ := of_bind h
    obtain ⟨writes', hw, h⟩ := of_bind h
    cases h
    obtain ⟨hauth, hfits, prior, rfl⟩ := createLane_eq_ok hw
    exact .stored prior (fun _ => Op.noConfusion) hauth hfits
  | update input =>
    obtain ⟨-, h⟩ := ite_error_eq_ok.mp h
    obtain ⟨prior, rfl⟩ := prepare_eq_ok (mutate_eq_ok h)
    exact .updated prior
  | addTicket | removeTicket =>
    obtain ⟨hauth, hfits, prior, rfl⟩ := putLane_eq_ok (mutate_eq_ok h)
    exact .stored prior (fun _ => Op.noConfusion) hauth hfits
  | transferTicket a b ticketId updatedBy => exact transfer_planned h
  | delete laneId updatedBy => exact delete_planned h

end Plans

/-! ## Tickets in one lane -/

/-- No ticket is in two open assignment lanes. -/
def Exclusive (t : LaneTable) : Prop :=
  ∀ a b la lb, t.lane a = some la → t.lane b = some lb → la.isOpenAssignment → lb.isOpenAssignment →
    ∀ ticketId, la.hasTicket ticketId → lb.hasTicket ticketId → a = b

/-- The invariant: every lane is stored under its id. -/
structure Kept (t : LaneTable) : Prop where
  named : ∀ id lane, t.lane id = some lane → lane.laneId = id
  exclusive : Exclusive t

section Tables

variable {t t' : LaneTable} {lane : Lane}

theorem named_insert (h : Kept t) (hi : t'.lanes = t.lanes.insert lane.laneId (some lane)) :
    ∀ id lane', t'.lane id = some lane' → lane'.laneId = id := by
  intro id lane' hl
  rw [lane_of_insert hi] at hl
  split_ifs at hl with hid
  · cases hl
    exact hid
  · exact h.named id lane' hl

/-- **Storing a lane keeps the tickets apart exactly if it fits.** -/
theorem exclusive_insert_iff (h : Kept t) (hi : t'.lanes = t.lanes.insert lane.laneId (some lane)) :
    Exclusive t' ↔ Fits t lane := by
  have hself : t'.lane lane.laneId = some lane := by rw [lane_of_insert hi, if_pos rfl]
  have hother : ∀ {id other}, t.lane id = some other → other.laneId ≠ lane.laneId →
      t'.lane id = some other := by
    intro id other hl hne
    rw [lane_of_insert hi, if_neg (by rw [← h.named id other hl]; exact hne.symm), hl]
  constructor
  · intro hex hopen id other hl hne hotherOpen ticketId hmem hlane
    have := hex id lane.laneId other lane (hother hl hne) hself hotherOpen hopen ticketId hmem hlane
    exact hne (by rw [h.named id other hl, this])
  · intro hfits
    -- Only the pairs with the stored lane are new.
    have hnew : ∀ id other, t.lane id = some other → id ≠ lane.laneId → other.isOpenAssignment →
        lane.isOpenAssignment → ∀ ticketId, other.hasTicket ticketId → lane.hasTicket ticketId →
        False := fun id other hl hne hotherOpen hopen ticketId hmem hlane =>
      hfits hopen id other hl (by rwa [h.named id other hl]) hotherOpen ticketId hmem hlane
    intro a b la lb ha hb hla hlb ticketId hta htb
    rw [lane_of_insert hi] at ha hb
    split_ifs at ha hb with hida hidb hidb
    · rw [← hida, ← hidb]
    · cases ha
      exact (hnew b lb hb (Ne.symm hidb) hlb hla ticketId htb hta).elim
    · cases hb
      exact (hnew a la ha (Ne.symm hida) hla hlb ticketId hta htb).elim
    · exact h.exclusive a b la lb ha hb hla hlb ticketId hta htb

theorem Kept.insert (h : Kept t) (hi : t'.lanes = t.lanes.insert lane.laneId (some lane))
    (hfits : Fits t lane) : Kept t' :=
  ⟨named_insert h hi, (exclusive_insert_iff h hi).mpr hfits⟩

theorem Kept.remove (h : Kept t) {laneId : Text} (hi : t'.lanes = t.lanes.insert laneId none) :
    Kept t' := by
  have hsub : ∀ id lane, t'.lane id = some lane → t.lane id = some lane := by
    intro id lane hl
    rw [lane_of_insert hi] at hl
    split_ifs at hl
    exact hl
  exact ⟨fun id lane hl => h.named id lane (hsub id lane hl), fun a b la lb ha hb =>
    h.exclusive a b la lb (hsub a la ha) (hsub b lb hb)⟩

theorem Kept.transfer (h : Kept t) {a b ticketId : Text} {source target source' target' : Lane}
    (htransfer : Transferred t a b ticketId source target source' target') : Kept (t.apply
      (laneCurrentWrites source' (some source) ++ laneCurrentWrites target' (some target))) := by
  obtain ⟨hsource, htarget, hopen, hticket, ⟨hid, hsub⟩, hid', hsame, hsup⟩ := htransfer
  have hida := h.named a source hsource
  have hidb := h.named b target htarget
  rw [apply_append]
  have hi := lanes_apply_current t source' (some source)
  have hfits : Fits t source' := by
    intro _ id other hl hne hotherOpen x hx hx'
    refine hne ?_
    rw [h.named id other hl, hid, hida]
    exact h.exclusive id a other source hl hsource hotherOpen hopen x hx (hsub x hx').1
  have h1 := h.insert hi hfits
  refine h1.insert (lanes_apply_current _ target' (some target)) ?_
  intro htargetOpen id other hl hne hotherOpen x hx hx'
  rw [hsame] at htargetOpen
  rw [lane_of_insert hi] at hl
  refine hne ?_
  rw [hid', hidb]
  split_ifs at hl with hids
  · -- The other lane is the source, which has neither the ticket nor one of the target.
    cases hl
    obtain ⟨hx, hxt⟩ := hsub x hx
    rcases hsup x hx' with hx' | rfl
    · rw [hid, hida]
      exact h.exclusive a b source target hsource htarget hopen htargetOpen x hx hx'
    · exact (hxt rfl).elim
  · rw [h.named id other hl]
    rcases hsup x hx' with hx' | rfl
    · exact h.exclusive id b other target hl htarget hotherOpen htargetOpen x hx hx'
    · have := h.exclusive id a other source hl hsource hotherOpen hopen x hx hticket
      exact (hids (by rw [hid, hida, this])).elim

/-- **A planned transaction keeps the lanes under their ids, and the tickets apart exactly if an
updated lane fits.** -/
theorem Planned.kept {access : Access} {ns : WorkspaceId} {op : Op} {writes : List LaneWrite}
    (hp : Planned access ns t op writes lane) (h : Kept t) :
    (∀ id lane', (t.apply writes).lane id = some lane' → lane'.laneId = id) ∧
      (Exclusive (t.apply writes) ↔ ∀ input, op = .update input → Fits t lane) := by
  cases hp with
  | stored prior hop hwrite hfits =>
    have hk := h.insert (lanes_apply_current t lane prior) hfits
    exact ⟨hk.named, iff_of_true hk.exclusive fun input he => (hop input he).elim⟩
  | updated prior =>
    have hi := lanes_apply_current t lane prior
    exact ⟨named_insert h hi, (exclusive_insert_iff h hi).trans
      ⟨fun hfits _ _ => hfits, fun hall => hall _ rfl⟩⟩
  | transferred hwrite htransfer =>
    have hk := h.transfer htransfer
    exact ⟨hk.named, iff_of_true hk.exclusive fun _ => Op.noConfusion⟩
  | deleted prior hwrite =>
    have hk := h.remove (lanes_apply_delete t prior)
    exact ⟨hk.named, iff_of_true hk.exclusive fun _ => Op.noConfusion⟩

end Tables

/-! ## Runs -/

/-- The commit takes effect, whatever it answers. -/
def Commit.takesEffect : Commit → Bool
  | .refused _ => false
  | .done | .stranded _ => true

theorem step_snd (r : Request) (s : Tables) : (step r s).2 = match r.plan s with
      | .error _ => s
      | .ok (writes, _) => if r.commit.takesEffect then s.commit r.workspace writes else s := by
  unfold step
  rcases r.plan s with e | ⟨writes, lane⟩
  · rfl
  · cases r.commit with
    | refused e => rfl
    | stranded e => rfl
    | done => cases r.notification <;> rfl

theorem table_commit (s : Tables) (ns ns' : WorkspaceId) (writes : List LaneWrite) :
    (s.commit ns writes).table ns' = if ns = ns' then (s.table ns).apply writes else s.table ns' := by
  unfold Tables.commit Tables.table
  rw [get_insert]
  split_ifs <;> rfl

/-- A committed update leaves a lane that fits the others. -/
def Guarded (ns : WorkspaceId) (s : Tables) (r : Request) : Prop :=
  ∀ input, r.op = .update input → r.workspace = ns → r.commit.takesEffect →
    ∀ writes lane, r.plan s = .ok (writes, lane) → Fits (s.table ns) lane

section Runs

variable {ns : WorkspaceId} {s : Tables} {r : Request}

/-- **Given the invariant, an operation keeps the tickets apart exactly if it is guarded.** -/
theorem step_kept (h : Kept (s.table ns)) :
    (∀ id lane, ((step r s).2.table ns).lane id = some lane → lane.laneId = id) ∧
      (Exclusive ((step r s).2.table ns) ↔ Guarded ns s r) := by
  rw [step_snd]
  cases hplan : r.plan s with
  | error e =>
    refine ⟨h.named, iff_of_true h.exclusive ?_⟩
    rintro input - - - writes lane hp
    rw [hplan] at hp
    cases hp
  | ok planned =>
    obtain ⟨writes, lane⟩ := planned
    dsimp only
    by_cases hcommit : r.commit.takesEffect = true
    · rw [if_pos hcommit, table_commit]
      by_cases hns : r.workspace = ns
      · subst hns
        rw [if_pos rfl]
        obtain ⟨hnamed, hiff⟩ := (planned_of_plan hplan).kept h
        refine ⟨hnamed, hiff.trans ⟨fun hall input hop _ _ writes' lane' hp => ?_,
          fun hg input hop => hg input hop rfl hcommit writes lane hplan⟩⟩
        rw [hplan] at hp
        cases hp
        exact hall input hop
      · rw [if_neg hns]
        exact ⟨h.named, iff_of_true h.exclusive fun _ _ hw => (hns hw).elim⟩
    · rw [if_neg hcommit]
      exact ⟨h.named, iff_of_true h.exclusive fun _ _ _ hc => (hcommit hc).elim⟩

/-- **From a workspace without lanes on, no ticket is in two open assignment lanes exactly if every
committed update leaves a lane that fits the others.** -/
theorem exclusive_iff (ns : WorkspaceId) (s : Tables) (hs : ∀ id, (s.table ns).lane id = none)
    (l : List Request) :
    Machine.Along step (fun s r => Exclusive ((step r s).2.table ns)) l s ↔
      Machine.Along step (Guarded ns) l s := by
  refine Machine.along_congr (P := fun s => Kept (s.table ns)) (fun s r h => (step_kept h).2)
    (fun s r he h => ⟨(step_kept h).1, he⟩) ⟨fun id lane hl => ?_, fun a b la lb ha => ?_⟩
  · rw [hs id] at hl
    cases hl
  · rw [hs a] at ha
    cases ha

end Runs

/-! ## Who may change lanes -/

/-- The tables differ in a lane. -/
def ChangesLane (s s' : Tables) : Prop := ∃ ns id, (s'.table ns).lane id ≠ (s.table ns).lane id

/-- Who changes a lane may write to the tickets of the workspace. -/
def Authorized (s : Tables) (r : Request) : Prop :=
  ChangesLane s (step r s).2 → r.access.authorizeDomain r.workspace .tickets .write = .ok ()

/-- An update that is committed and gives another lane than the stored one is by someone who may
write. -/
def UpdateAuthorized (s : Tables) (r : Request) : Prop :=
  ∀ input, r.op = .update input → r.commit.takesEffect →
    ∀ writes lane, r.plan s = .ok (writes, lane) →
      (s.table r.workspace).lane lane.laneId ≠ some lane →
      r.access.authorizeDomain r.workspace .tickets .write = .ok ()

/-- **Who changes a lane may write, exactly if this holds of updates.** -/
theorem authorized_iff (s : Tables) (r : Request) : Authorized s r ↔ UpdateAuthorized s r := by
  unfold Authorized
  rw [step_snd]
  constructor
  · intro h input hop hcommit writes lane hplan hne
    rw [hplan] at h
    refine h ⟨r.workspace, lane.laneId, ?_⟩
    dsimp only
    rw [if_pos hcommit, table_commit, if_pos rfl]
    have hp := planned_of_plan hplan
    rw [hop] at hp
    cases hp with
    | stored prior hop' => exact (hop' input rfl).elim
    | updated prior =>
      rw [lane_of_insert (lanes_apply_current _ lane prior), if_pos rfl]
      exact hne.symm
  · rintro h ⟨ns, id, hne⟩
    cases hplan : r.plan s with
    | error e =>
      rw [hplan] at hne
      exact (hne rfl).elim
    | ok planned =>
      obtain ⟨writes, lane⟩ := planned
      rw [hplan] at hne
      split_ifs at hne with hcommit
      · have hp : Planned r.access r.workspace (s.table r.workspace) r.op writes lane :=
          planned_of_plan hplan
        generalize hop : r.op = op at hp
        cases hp with
        | stored prior hop' hwrite => exact hwrite
        | updated prior =>
          refine h _ hop hcommit _ lane hplan fun hsame => hne ?_
          rw [table_commit]
          split_ifs with hns
          · subst hns
            rw [lane_of_insert (lanes_apply_current _ lane prior)]
            split_ifs with hid
            · rw [← hid, hsame]
            · rfl
          · rfl
        | transferred hwrite => exact hwrite
        | deleted prior hwrite => exact hwrite
      · exact (hne rfl).elim

namespace Sample

def ns : WorkspaceId := .zero

def anyone : Access := ⟨none, .new, none⟩

def create (laneId : Text) : Op :=
  .create {
    laneId := laneId
    laneKey := laneId
    title := ""
    description := ""
    laneKind := "assignment"
    ownerPrincipal := none
    laneStatus := "working"
    laneTickets := [⟨"T", "V"⟩]
    activeTicketId := none
    statusReport := ""
    reviewerFeedback := ""
    updatedBy := "u" }

def setStatus (laneId status : Text) : Op :=
  .update {
    laneId := laneId
    title := none
    description := none
    laneStatus := some status
    statusReport := none
    reviewerFeedback := none
    updatedBy := "u" }

def request (access : Access) (op : Op) : Request := ⟨access, ns, 1, op, .done, none⟩

def lane (laneId : Text) : Lane where
  laneId := laneId
  laneKey := laneId
  title := ""
  description := ""
  laneKind := .assignment
  ownerPrincipal := none
  laneStatus := .working
  laneTickets := [⟨"T", "V"⟩]
  activeTicketId := none
  statusReport := ""
  reviewerFeedback := ""
  updatedAt := 1
  updatedBy := "u"

/-- A lane is closed, and its ticket is given to another one. -/
def reassigned : List Request :=
  [create "A", setStatus "A" "closed", create "B"].map (request anyone)

theorem reassigned_exclusive :
    Machine.Along step (fun s r => Exclusive ((step r s).2.table ns)) reassigned .empty := by
  refine (exclusive_iff ns .empty (fun _ => rfl) reassigned).mpr
    ⟨fun _ hop => Op.noConfusion hop, fun _ _ _ _ writes lane hp => ?_,
      fun _ hop => Op.noConfusion hop, trivial⟩
  have hclosed : (((request anyone (setStatus "A" "closed")).plan
      (step (request anyone (create "A")) .empty).2).toOption.map (·.2.isOpenAssignment)) =
        some false := by
    decide +kernel
  intro hopen
  rw [hp] at hclosed
  exact (Bool.false_ne_true ((Option.some.inj hclosed).symm.trans hopen)).elim

def reopened : List Request := reassigned ++ [request anyone (setStatus "A" "working")]

/-- **The ticket is then in both lanes.** -/
theorem reopened_not_exclusive :
    ¬ Machine.Along step (fun s r => Exclusive ((step r s).2.table ns)) reopened .empty := by
  intro h
  have hab := h.2.2.2.1 "A" "B" (lane "A") (lane "B") (by decide +kernel) (by decide +kernel) rfl rfl
    "T" (by decide +kernel) (by decide +kernel)
  exact (by decide : ("A" : String) ≠ "B") hab

def readers : AclGrant where
  subject := .everyone
  workspace := some ns
  domain := some .tickets
  refGlob := none
  scopes := [.all]
  rights := .ofList [.read]
  effect := .allow
  predicate := none

def reader : Access := ⟨some ⟨true, .ok ns, fun _ => .ok []⟩, ⟨[readers]⟩, none⟩

/-- **Someone who may only read closes a lane.** -/
theorem reader_not_authorized : ¬ Authorized (step (request anyone (create "A")) .empty).2
      (request reader (setStatus "A" "closed")) := by
  intro h
  have hwrite := h ⟨ns, "A", by decide +kernel⟩
  exact absurd hwrite (by decide +kernel)

end Sample

end UldrenLoom.Lanes
