import UldrenLoom.Cbor

/-!
# Group commits

Concurrent writers put their objects into one queue, and one of them commits what has gathered there
for all. The others wait for the outcome of their batch. Everything done under one lock is one step;
the commit itself always returns.

* **`correct_iff`**: every call returns, and soundly, exactly if no call has an empty list of objects.
* **`empty_hangs`**: a call with no objects drops the lead and waits for itself.
-/

namespace UldrenLoom.Store.GroupCommit

variable {ι Obj : Type}

/-- Where a call is. A leader that has taken the queue has its waiters in hand. -/
inductive Pc (ι Obj : Type) where
  | start
  | leading
  | committing (batch : List Obj) (waiters : List ι)
  | delivering (outcome : Result Unit) (waiters : List ι)
  | waiting
  | done (outcome : Result Unit)

def Pc.leads : Pc ι Obj → Bool
  | .leading | .committing .. | .delivering .. => true
  | _ => false

def Pc.inHand : Pc ι Obj → List ι
  | .committing _ waiters | .delivering _ waiters => waiters
  | _ => []

/-- The queue, the calls with the slots they wait for, and the transactions that committed. -/
structure State (ι Obj : Type) where
  pending : List Obj
  waiters : List ι
  leaderActive : Bool
  pc : ι → Pc ι Obj
  outcome : ι → Option (Result Unit)
  committed : List (List Obj)

def State.init : State ι Obj := ⟨[], [], false, fun _ => .start, fun _ => none, []⟩

variable [DecidableEq ι] (items : ι → List Obj)

/-- A step of a call: it queues its objects and may lead; a leader drops the lead or takes the
queue, commits it and fills the slots; a call whose slot is filled returns. -/
inductive Step : ι → State ι Obj → State ι Obj → Prop
  | enter {s : State ι Obj} {i : ι} (h : s.pc i = .start) : Step i s { s with
      pending := s.pending ++ items i
      waiters := s.waiters ++ [i]
      leaderActive := true
      pc := Function.update s.pc i (if s.leaderActive then .waiting else .leading) }
  | drop {s : State ι Obj} {i : ι} (h : s.pc i = .leading) (hp : s.pending = []) : Step i s { s with
      leaderActive := false
      pc := Function.update s.pc i .waiting }
  | take {s : State ι Obj} {i : ι} (h : s.pc i = .leading) (hp : s.pending ≠ []) : Step i s { s with
      pending := []
      waiters := []
      pc := Function.update s.pc i (.committing s.pending s.waiters) }
  | commit {s : State ι Obj} {i : ι} {batch : List Obj} {ws : List ι}
      (h : s.pc i = .committing batch ws) (outcome : Result Unit) : Step i s { s with
      committed := if outcome.isOk then s.committed ++ [batch] else s.committed
      pc := Function.update s.pc i (.delivering outcome ws) }
  | deliver {s : State ι Obj} {i w : ι} {outcome : Result Unit} {ws : List ι}
      (h : s.pc i = .delivering outcome (w :: ws)) : Step i s { s with
      outcome := Function.update s.outcome w (some outcome)
      pc := Function.update s.pc i (.delivering outcome ws) }
  | again {s : State ι Obj} {i : ι} {outcome : Result Unit}
      (h : s.pc i = .delivering outcome []) : Step i s { s with
      pc := Function.update s.pc i .leading }
  | return {s : State ι Obj} {i : ι} {outcome : Result Unit} (h : s.pc i = .waiting)
      (ho : s.outcome i = some outcome) : Step i s { s with
      outcome := Function.update s.outcome i none
      pc := Function.update s.pc i (.done outcome) }

def Reachable : State ι Obj → Prop :=
  Relation.ReflTransGen (fun s s' => ∃ i, Step items i s s') State.init

/-- No call can go on. -/
def Stuck (s : State ι Obj) : Prop := ∀ i s', ¬ Step items i s s'

/-- Some transaction that committed has the objects of the call. -/
def Stored (s : State ι Obj) (i : ι) : Prop := ∃ batch ∈ s.committed, items i ⊆ batch

/-- **What callers rely on**: no interleaving goes on forever or gets stuck, a call returns `Ok`
only for what was committed, and nothing is left behind. -/
structure Correct : Prop where
  ends : ¬ ∃ run : ℕ → State ι Obj, run 0 = State.init ∧ ∀ k, ∃ i, Step items i (run k) (run (k + 1))
  returns : ∀ s, Reachable items s → Stuck items s → ∀ i, ∃ outcome, s.pc i = .done outcome
  sound : ∀ s, Reachable items s → ∀ i, s.pc i = .done (.ok ()) → Stored items s i
  idle : ∀ s, Reachable items s → (∀ i, s.pc i = .start ∨ ∃ outcome, s.pc i = .done outcome) →
    s.pending = [] ∧ s.waiters = [] ∧ s.leaderActive = false

variable {items} {s s' : State ι Obj} {i : ι}

/-! ## What is committed -/

variable (items) in
/-- Whoever is queued, in hand or told `Ok` has its objects where it is. -/
structure Sound (s : State ι Obj) : Prop where
  queued : ∀ i ∈ s.waiters, items i ⊆ s.pending
  taken : ∀ j batch ws, s.pc j = .committing batch ws → ∀ i ∈ ws, items i ⊆ batch
  stored : ∀ j ws, s.pc j = .delivering (.ok ()) ws → ∀ i ∈ ws, Stored items s i
  filled : ∀ i, s.outcome i = some (.ok ()) → Stored items s i
  returned : ∀ i, s.pc i = .done (.ok ()) → Stored items s i

theorem Sound.step (h : Sound items s) (hstep : Step items i s s') : Sound items s' := by
  obtain ⟨hqueued, htaken, hstored, hfilled, hreturned⟩ := h
  cases hstep with
  | enter | drop | take | again | «return» => constructor <;> grind [Stored]
  | commit hpc outcome =>
    rcases outcome with e | ⟨⟨⟩⟩ <;> constructor <;> grind [Stored, Except.toBool]
  | @deliver _ _ w outcome ws hpc =>
    have hw : outcome = .ok () → Stored items s w := fun h =>
      hstored i (w :: ws) (h ▸ hpc) w List.mem_cons_self
    constructor <;> grind [Stored]

/-! ## Who leads, and where waiters are -/

theorem exists_update (pc : ι → Pc ι Obj) (P : Pc ι Obj → Prop) (i : ι) (p : Pc ι Obj)
    (hp : P (pc i) → P p) (h : ∃ j, P (pc j)) : ∃ j, P (Function.update pc i p j) := by
  obtain ⟨j, hj⟩ := h
  by_cases hji : j = i
  · subst hji
    exact ⟨j, by simpa using hp hj⟩
  · exact ⟨j, by simpa [hji] using hj⟩

/-- What holds along every interleaving. -/
structure Inv (s : State ι Obj) : Prop where
  leader : s.leaderActive → ∃ i, (s.pc i).leads
  drained : s.leaderActive = false → s.pending = []
  attended : s.pending ≠ [] → s.waiters ≠ []
  fresh : ∀ i, s.pc i = .start → s.outcome i = none ∧ i ∉ s.waiters ∧ ∀ j, i ∉ (s.pc j).inHand
  placed : ∀ i, s.pc i = .start ∨ (∃ o, s.pc i = .done o) ∨ s.outcome i ≠ none ∨ i ∈ s.waiters ∨
    ∃ j, i ∈ (s.pc j).inHand

theorem Inv.fresh_step (h : Inv s) (hstep : Step items i s s') (j : ι) (hj : s'.pc j = .start) :
    s'.outcome j = none ∧ j ∉ s'.waiters ∧ ∀ k, j ∉ (s'.pc k).inHand := by
  have hfresh := h.fresh
  cases hstep <;> grind [Pc.inHand]

theorem Inv.step (h : Inv s) (hstep : Step items i s s') : Inv s' := by
  have hfresh := h.fresh_step hstep
  obtain ⟨hleader, hdrained, hattended, -, hplaced⟩ := h
  have hleads := fun p hp => exists_update s.pc (fun p => p.leads) i p hp
  have hhand := fun j p hp => exists_update s.pc (fun p => j ∈ p.inHand) i p hp
  cases hstep with
  | enter hpc =>
    refine ⟨fun _ => ?_, by simp, by simp, hfresh, fun j => ?_⟩
    · by_cases hl : s.leaderActive
      · exact hleads _ (by simp [hpc, Pc.leads]) (hleader hl)
      · exact ⟨i, by simp [hl, Pc.leads]⟩
    · have := hhand j (if s.leaderActive then .waiting else .leading) (by simp [hpc, Pc.inHand])
      grind
  | drop hpc hp =>
    refine ⟨by simp, fun _ => hp, hattended, hfresh, fun j => ?_⟩
    have := hhand j .waiting (by simp [hpc, Pc.inHand])
    grind
  | take hpc hp =>
    refine ⟨fun hl => hleads _ (fun _ => rfl) (hleader hl), by simp, by simp, hfresh, fun j => ?_⟩
    have := hhand j (.committing s.pending s.waiters) (by simp [hpc, Pc.inHand])
    by_cases hj : j ∈ s.waiters
    · exact .inr (.inr (.inr (.inr ⟨i, by simpa [Pc.inHand] using hj⟩)))
    · grind
  | @commit _ _ batch ws hpc outcome =>
    refine ⟨fun hl => hleads _ (fun _ => rfl) (hleader hl), hdrained, hattended,
      hfresh, fun j => ?_⟩
    have := hhand j (.delivering outcome ws) (by simp [hpc, Pc.inHand])
    grind
  | @deliver _ _ w outcome ws hpc =>
    refine ⟨fun hl => hleads _ (fun _ => rfl) (hleader hl), hdrained, hattended,
      hfresh, fun j => ?_⟩
    by_cases hw : j = w
    · exact .inr (.inr (.inl (by simp [hw])))
    · have := hhand j (.delivering outcome ws) (by simp [hpc, Pc.inHand, hw])
      grind
  | again hpc =>
    refine ⟨fun hl => hleads _ (fun _ => rfl) (hleader hl), hdrained, hattended,
      hfresh, fun j => ?_⟩
    have := hhand j .leading (by simp [hpc, Pc.inHand])
    grind
  | @«return» _ _ outcome hpc ho =>
    refine ⟨fun hl => hleads _ (by simp [hpc, Pc.leads]) (hleader hl), hdrained, hattended,
      hfresh, fun j => ?_⟩
    have := hhand j (.done outcome) (by simp [hpc, Pc.inHand])
    grind

theorem reachable_inv (h : Reachable items s) : Inv s ∧ Sound items s := by
  induction h with
  | refl => exact ⟨by constructor <;> simp [State.init, Pc.inHand], by constructor <;> simp [State.init]⟩
  | tail _ hstep ih =>
    obtain ⟨i, hstep⟩ := hstep
    exact ⟨ih.1.step hstep, ih.2.step hstep⟩

/-! ## Who returns -/

theorem exists_step_iff : (∃ s', Step items i s s') ↔
    s.pc i = .start ∨ (s.pc i).leads ∨ s.pc i = .waiting ∧ s.outcome i ≠ none := by
  constructor
  · rintro ⟨s', hstep⟩
    cases hstep <;> simp [Pc.leads, *]
  · intro h
    cases hpc : s.pc i with
    | start => exact ⟨_, .enter hpc⟩
    | leading =>
      by_cases hp : s.pending = []
      · exact ⟨_, .drop hpc hp⟩
      · exact ⟨_, .take hpc hp⟩
    | committing batch ws => exact ⟨_, .commit hpc (.ok ())⟩
    | delivering outcome ws =>
      cases ws with
      | nil => exact ⟨_, .again hpc⟩
      | cons w ws => exact ⟨_, .deliver hpc⟩
    | waiting =>
      obtain ⟨outcome, ho⟩ := Option.ne_none_iff_exists'.mp (show s.outcome i ≠ none by
        simpa [hpc, Pc.leads] using h)
      exact ⟨_, .return hpc ho⟩
    | done outcome => simp [hpc, Pc.leads] at h

omit [DecidableEq ι] in
theorem Inv.leaderActive_eq_false (h : Inv s) (hleads : ∀ i, ¬ (s.pc i).leads) :
    s.leaderActive = false := by
  by_contra hl
  obtain ⟨i, hi⟩ := h.leader (by simpa using hl)
  exact hleads i hi

omit [DecidableEq ι] in
theorem idle (h : Inv s) (hs : Sound items s) (hne : ∀ i, items i ≠ [])
    (hleads : ∀ i, ¬ (s.pc i).leads) :
    s.pending = [] ∧ s.waiters = [] ∧ s.leaderActive = false := by
  have hflag := h.leaderActive_eq_false hleads
  have hpending := h.drained hflag
  refine ⟨hpending, List.eq_nil_iff_forall_not_mem.mpr fun i hi => hne i ?_, hflag⟩
  exact List.subset_nil.mp (hpending ▸ hs.queued i hi)

theorem returns (h : Inv s) (hs : Sound items s) (hne : ∀ i, items i ≠ []) (hstuck : Stuck items s)
    (i : ι) : ∃ outcome, s.pc i = .done outcome := by
  have hno : ∀ j, ¬ (s.pc j = .start ∨ (s.pc j).leads ∨ s.pc j = .waiting ∧ s.outcome j ≠ none) :=
    fun j hj => (exists_step_iff.mpr hj).elim (hstuck j)
  obtain ⟨-, hwaiters, -⟩ := idle h hs hne fun j hj => hno j (.inr (.inl hj))
  have hhand : ∀ j, (s.pc j).inHand = [] := fun j => by
    have := hno j
    cases hpc : s.pc j <;> simp_all [Pc.leads, Pc.inHand]
  have := hno i
  have hplaced := h.placed i
  cases hpc : s.pc i <;> simp_all [Pc.leads]

/-! ## Every run ends -/

/-- What a call still has to do at most. -/
def Pc.weight : Pc ι Obj → ℕ
  | .start => 7
  | .leading => 2
  | .committing _ ws => 4 + ws.length
  | .delivering _ ws => 3 + ws.length
  | .waiting => 1
  | .done _ => 0

variable [Fintype ι]

/-- What is left to do: a queued call may cost its leader one more round. -/
def weight (s : State ι Obj) : ℕ := ∑ i, (s.pc i).weight + 4 * s.waiters.length

theorem weight_update {p : Pc ι Obj} (hpc : s'.pc = Function.update s.pc i p)
    (h : p.weight + 4 * s'.waiters.length < (s.pc i).weight + 4 * s.waiters.length) :
    weight s' < weight s := by
  have hrest : ∑ j ∈ Finset.univ.erase i, (s'.pc j).weight =
      ∑ j ∈ Finset.univ.erase i, (s.pc j).weight :=
    Finset.sum_congr rfl fun j hj => by rw [hpc, Function.update_of_ne (Finset.ne_of_mem_erase hj)]
  rw [weight, weight, ← Finset.add_sum_erase _ _ (Finset.mem_univ i),
    ← Finset.add_sum_erase _ (fun j => (s.pc j).weight) (Finset.mem_univ i), hrest, hpc,
    Function.update_self]
  omega

theorem weight_lt (h : Inv s) (hstep : Step items i s s') : weight s' < weight s := by
  cases hstep with
  | enter hpc =>
    refine weight_update rfl ?_
    split_ifs <;> simp [hpc, Pc.weight] <;> omega
  | drop hpc | commit hpc | deliver hpc | again hpc | «return» hpc =>
    exact weight_update rfl (by simp [hpc, Pc.weight])
  | take hpc hp =>
    have := List.length_pos_iff.mpr (h.attended hp)
    exact weight_update rfl (by simp [hpc, Pc.weight]; omega)

variable (items) in
theorem no_infinite_run :
    ¬ ∃ run : ℕ → State ι Obj, run 0 = State.init ∧ ∀ k, ∃ i, Step items i (run k) (run (k + 1)) := by
  rintro ⟨run, h0, hrun⟩
  have hreach : ∀ k, Reachable items (run k) := by
    intro k
    induction k with
    | zero => rw [h0]; exact .refl
    | succ k ih => exact ih.tail (hrun k)
  refine not_strictAnti_of_wellFoundedLT (fun k => weight (run k))
    (strictAnti_nat_of_succ_lt fun k => ?_)
  obtain ⟨i, hstep⟩ := hrun k
  exact weight_lt (reachable_inv (hreach k)).1 hstep

/-! ## Correctness -/

/-- **A call without objects can hang**: it leads, finds nothing to commit, and waits. -/
theorem hangs (h : items i = []) : ∃ s, Reachable items s ∧ Stuck items s ∧ s.pc i = .waiting := by
  obtain ⟨s, ⟨hs, hstart⟩, hmin⟩ := WellFounded.has_min (measure weight).wf
    {s : State ι Obj | Reachable items s ∧ s.pc i = .start} ⟨State.init, .refl, rfl⟩
  have hinv := (reachable_inv hs).1
  have hquiet : ∀ j, j ≠ i → ¬ ∃ s', Step items j s s' := by
    rintro j hj ⟨s', hstep⟩
    refine hmin s' ⟨hs.tail ⟨j, hstep⟩, ?_⟩ (weight_lt hinv hstep)
    cases hstep <;> simpa [hj.symm] using hstart
  have hleads : ∀ j, ¬ (s.pc j).leads := fun j hl => by
    by_cases hj : j = i
    · simp [hj, hstart, Pc.leads] at hl
    · exact hquiet j hj (exists_step_iff.mpr (.inr (.inl hl)))
  have hflag := hinv.leaderActive_eq_false hleads
  have henter : Step items i s _ := .enter hstart
  rw [hflag, h, hinv.drained hflag] at henter
  have hdrop : Step items i ⟨[], s.waiters ++ [i], true, Function.update s.pc i .leading, s.outcome,
    s.committed⟩ _ := .drop (by simp) rfl
  refine ⟨_, (hs.tail ⟨i, henter⟩).tail ⟨i, hdrop⟩, fun j s' hstep => ?_, by simp⟩
  have hgo := exists_step_iff.mp ⟨s', hstep⟩
  by_cases hj : j = i
  · subst hj
    simp [Pc.leads, (hinv.fresh j hstart).1] at hgo
  · exact hquiet j hj (exists_step_iff.mpr (by simpa [hj] using hgo))

variable (items) in
/-- **Group commits are correct exactly if no call has an empty list.** -/
theorem correct_iff : Correct items ↔ ∀ i, items i ≠ [] := by
  constructor
  · intro h i hi
    obtain ⟨s, hs, hstuck, hwait⟩ := hangs hi
    obtain ⟨outcome, hdone⟩ := h.returns s hs hstuck i
    cases hwait.symm.trans hdone
  · intro hne
    refine ⟨no_infinite_run items, fun s hs => ?_, fun s hs => ?_, fun s hs hrest => ?_⟩
    · exact returns (reachable_inv hs).1 (reachable_inv hs).2 hne
    · exact (reachable_inv hs).2.returned
    · refine idle (reachable_inv hs).1 (reachable_inv hs).2 hne fun i hl => ?_
      obtain h | ⟨outcome, h⟩ := hrest i <;> simp [h, Pc.leads] at hl

/-- A single call without objects never returns. -/
theorem empty_hangs : ∃ s : State Unit ℕ, Reachable (fun _ => []) s ∧ Stuck (fun _ => []) s ∧
    s.pc () = .waiting :=
  hangs rfl

end UldrenLoom.Store.GroupCommit
