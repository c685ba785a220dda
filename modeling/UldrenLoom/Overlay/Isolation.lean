import UldrenLoom.Lib.Machine
import UldrenLoom.Overlay.Reads

/-!
# Snapshots of an overlay are not disturbed

A snapshot shares its logs with overlays that go on writing. It keeps its entries since every write
is stamped with a generation above those that any snapshot of the log has.

* **`Change.entries_eq`**: no step changes the entries of a covered snapshot.
* **`isolation`**: after every run, snapshots and forks read what they should.
* **`reads_of_others`**: an overlay sees no writes but its own.
-/

namespace UldrenLoom.Overlay

open ByteString List SortedMap SortedSet OverlaySnapshot Fallible Heap

/-! ## Entries in the order of their generations -/

def lastGeneration (l : List OverlayEntry) : ℕ := (l.getLast?.map OverlayEntry.generation).getD 0

/-- The entries are ordered by generation, have no key twice in one, and end with a generation. -/
structure Chronicle (l : List OverlayEntry) (generation : ℕ) : Prop where
  ordered : l.Pairwise fun a b =>
    a.generation < b.generation ∨ a.generation = b.generation ∧ a.key ≠ b.key
  positive : ∀ e ∈ l, 0 < e.generation
  last : lastGeneration l = generation

namespace Chronicle

variable {l : List OverlayEntry} {generation : ℕ}

theorem nil : Chronicle [] 0 := ⟨List.Pairwise.nil, by simp, rfl⟩

theorem lastGeneration_concat (l : List OverlayEntry) (e : OverlayEntry) :
    lastGeneration (l ++ [e]) = e.generation := by
  rw [lastGeneration, List.getLast?_concat]
  rfl

variable {e : OverlayEntry}

theorem of_concat (h : Chronicle (l ++ [e]) generation) :
    Chronicle l (lastGeneration l) ∧ e.generation = generation ∧ 0 < e.generation ∧
      ∀ a ∈ l, a.generation < e.generation ∨ a.generation = e.generation ∧ a.key ≠ e.key := by
  obtain ⟨hl, -, hlast⟩ := pairwise_append.mp h.ordered
  refine ⟨⟨hl, fun a ha => h.positive a (mem_append_left _ ha), rfl⟩, ?_, ?_, ?_⟩
  · rw [← h.last, lastGeneration_concat]
  · exact h.positive e (by simp)
  · exact fun a ha => hlast a ha e (mem_singleton_self e)

theorem le (h : Chronicle l generation) (he : e ∈ l) : e.generation ≤ generation := by
  induction l using List.reverseRecOn with
  | nil => cases he
  | append_singleton l a _ =>
    obtain ⟨-, rfl, -, hbefore⟩ := h.of_concat
    rcases mem_append.mp he with he | he
    · rcases hbefore e he with hlt | ⟨heq, -⟩
      · exact le_of_lt hlt
      · exact le_of_eq heq
    · rw [mem_singleton.mp he]

theorem lastGeneration_le (h : Chronicle (l ++ [e]) generation) :
    lastGeneration l ≤ e.generation := by
  obtain ⟨-, rfl, -, -⟩ := h.of_concat
  induction l using List.reverseRecOn with
  | nil => exact Nat.zero_le _
  | append_singleton l a _ =>
    rw [lastGeneration_concat]
    exact h.le (by simp)

theorem append (h : Chronicle l generation) {new : List OverlayEntry} (hne : new ≠ [])
    (hnew : ∀ e ∈ new, e.generation = generation + 1)
    (hkeys : (new.map OverlayEntry.key).Nodup) : Chronicle (l ++ new) (generation + 1) where
  ordered := by
    refine pairwise_append.mpr ⟨h.ordered, ?_, fun a ha b hb => .inl ?_⟩
    · refine (pairwise_map.mp hkeys).imp_of_mem fun {a b} ha hb hab => .inr ⟨?_, hab⟩
      rw [hnew a ha, hnew b hb]
    · have hle := h.le ha
      have heq := hnew b hb
      omega
  positive e he := by
    rcases mem_append.mp he with he | he
    · exact h.positive e he
    · rw [hnew e he]
      exact Nat.succ_pos _
  last := by
    obtain ⟨l', e, rfl⟩ := eq_nil_or_concat new |>.resolve_left hne
    rw [concat_eq_append, ← append_assoc, lastGeneration_concat]
    exact hnew e (by simp)

end Chronicle

/-! ## The invariant -/

theorem Heap.log_concat (heap : Heap) (a : ℕ) : Heap.log (heap ++ [.empty]) a = heap.log a := by
  unfold Heap.log
  rcases lt_trichotomy a heap.length with h | h | h
  · rw [getD_append _ _ _ _ h]
  · rw [getD_append_right _ _ _ _ (le_of_eq h.symm), h, Nat.sub_self]
    simp
  · rw [getD_append_right _ _ _ _ (le_of_lt h), getD_eq_default _ _ (le_of_lt h)]
    exact getD_eq_default _ _ (by simp; omega)

theorem Heap.log_modify_self {heap : Heap} {a : ℕ} (h : a < heap.length) (f : Log → Log) :
    Heap.log (heap.modify a f) a = f (heap.log a) := by
  unfold Heap.log
  simp [getD_eq_getElem?_getD, h]

theorem Heap.log_modify_of_ne {heap : Heap} {a b : ℕ} (h : a ≠ b) (f : Log → Log) :
    Heap.log (heap.modify a f) b = heap.log b := by
  unfold Heap.log
  simp [getD_eq_getElem?_getD, h]

theorem Heap.modify_concat (heap : Heap) (log : Log) (f : Log → Log) :
    (heap ++ [log]).modify heap.length f = heap ++ [f log] := by
  induction heap with
  | nil => rfl
  | cons a heap ih => exact congrArg (a :: ·) ih

/-- Every layer is a generation that the overlay of its log has reached. -/
def Covered (overlays : List MutableOverlay) : OverlaySnapshot → Prop
  | .root generation log => ∃ o, overlays[log]? = some o ∧ generation ≤ o.generation
  | .fork generation log parent =>
    (∃ o, overlays[log]? = some o ∧ generation ≤ o.generation) ∧ Covered overlays parent

/-- What holds of an overlay and its log. -/
structure SoundOverlay (heap : Heap) (overlays : List MutableOverlay) (o : MutableOverlay) :
    Prop where
  home : overlays[o.log]? = some o
  tokens : ∀ key, o.ownerTokens.get key =
    (newest OverlayEntry.key key (heap.log o.log).entries).map OverlayEntry.ownerToken
  within : ∀ e ∈ (heap.log o.log).entries, e.generation ≤ o.generation
  chronicle : Chronicle (o.snapshot.entries heap) o.generation
  parent : ∀ s, o.parent = some s → Covered overlays s

/-- The invariant of the world. -/
structure Sound (w : World) : Prop where
  size : w.overlays.length = w.heap.length
  address : ∀ i (o : MutableOverlay), w.overlays[i]? = some o → o.log = i
  overlay : ∀ o ∈ w.overlays, SoundOverlay w.heap w.overlays o
  snapshot : ∀ s ∈ w.snapshots, Covered w.overlays s ∧ Chronicle (s.entries w.heap) s.generation

/-- The entries that an overlay has from its parent. -/
def MutableOverlay.inherited (heap : Heap) (o : MutableOverlay) : List OverlayEntry :=
  o.parent.elim [] (·.entries heap)

theorem MutableOverlay.snapshot_entries (heap : Heap) (o : MutableOverlay) :
    o.snapshot.entries heap =
      o.inherited heap ++ (heap.log o.log).entries.filter (OverlayEntry.visible o.generation) := by
  obtain ⟨generation, log, tokens, _ | parent⟩ := o <;> rfl

theorem MutableOverlay.snapshot_generation (o : MutableOverlay) :
    o.snapshot.generation = o.generation := by
  obtain ⟨generation, log, tokens, _ | parent⟩ := o <;> rfl

namespace SoundOverlay

variable {heap : Heap} {overlays : List MutableOverlay} {o : MutableOverlay}

theorem covered (h : SoundOverlay heap overlays o) : Covered overlays o.snapshot := by
  have hhome : ∃ o', overlays[o.log]? = some o' ∧ o.generation ≤ o'.generation :=
    ⟨o, h.home, le_refl _⟩
  have hparent := h.parent
  obtain ⟨generation, log, tokens, _ | parent⟩ := o
  · exact hhome
  · exact ⟨hhome, hparent parent rfl⟩

theorem filter_log (h : SoundOverlay heap overlays o) :
    (heap.log o.log).entries.filter (OverlayEntry.visible o.generation) =
      (heap.log o.log).entries :=
  filter_eq_self.mpr fun e he => decide_eq_true (h.within e he)

theorem currentOwnerToken_eq (h : SoundOverlay heap overlays o) (key : OverlayKey) :
    o.currentOwnerToken heap key = (o.currentEntry heap key).map OverlayEntry.ownerToken := by
  unfold MutableOverlay.currentOwnerToken MutableOverlay.currentEntry
  rw [h.tokens, Log.current_eq, h.filter_log]
  cases newest OverlayEntry.key key (heap.log o.log).entries with
  | some e => rfl
  | none =>
    cases o.parent with
    | none => rfl
    | some parent => rfl

end SoundOverlay

theorem Sound.start : Sound .start where
  size := rfl
  address i o ho := by
    obtain ⟨hi, rfl⟩ := List.getElem?_eq_some_iff.mp ho
    obtain rfl : i = 0 := by simpa [World.start] using hi
    rfl
  overlay o ho := by
    obtain rfl := mem_singleton.mp ho
    exact ⟨rfl, fun _ => rfl, fun e he => (not_mem_nil he).elim, Chronicle.nil,
      fun s hs => nomatch hs⟩
  snapshot s hs := by cases hs

/-! ## What a step can do -/

/-- A step leaves logs and overlays alone, appends the next generation to one log, or forks. -/
inductive Change (w : World) : World → Prop
  | same {w' : World} (hheap : w'.heap = w.heap) (hoverlays : w'.overlays = w.overlays) :
      Change w w'
  | append {w' : World} {o : MutableOverlay} {new : List OverlayEntry}
      (ho : w.overlays[o.log]? = some o) (hne : new ≠ [])
      (hnew : ∀ e ∈ new, e.generation = o.generation + 1)
      (hkeys : (new.map OverlayEntry.key).Nodup)
      (hheap : w'.heap = (o.append w.heap new (o.generation + 1)).2)
      (hoverlays : w'.overlays = w.overlays.set o.log (o.append w.heap new (o.generation + 1)).1) :
      Change w w'
  | fork {w' : World} {s : OverlaySnapshot} (hs : s ∈ w.snapshots)
      (hheap : w'.heap = w.heap ++ [.empty])
      (hoverlays : w'.overlays = w.overlays ++ [.forkFromSnapshot s w.heap.length]) : Change w w'

variable {w w' : World}

namespace Change

theorem covered (h : Change w w') {s : OverlaySnapshot} (hs : Covered w.overlays s) :
    Covered w'.overlays s := by
  have hlayer : ∀ a g : ℕ, (∃ o : MutableOverlay, w.overlays[a]? = some o ∧ g ≤ o.generation) →
      ∃ o : MutableOverlay, w'.overlays[a]? = some o ∧ g ≤ o.generation := by
    rintro a g ⟨o', ho', hle⟩
    cases h with
    | same _ hoverlays => exact ⟨o', hoverlays ▸ ho', hle⟩
    | @append o new ho hne hnew hkeys hheap hoverlays =>
      rw [hoverlays, List.getElem?_set]
      split_ifs with ha hlt
      · subst ha
        rw [ho] at ho'
        cases ho'
        exact ⟨_, rfl, le_trans hle (Nat.le_succ _)⟩
      · exact absurd (List.getElem?_eq_some_iff.mp ho).1 hlt
      · exact ⟨o', ho', hle⟩
    | fork _ _ hoverlays =>
      refine ⟨o', ?_, hle⟩
      rw [hoverlays, List.getElem?_append_left (List.getElem?_eq_some_iff.mp ho').1]
      exact ho'
  induction s with
  | root generation log => exact hlayer log generation hs
  | fork generation log parent ih => exact ⟨hlayer log generation hs.1, ih hs.2⟩

theorem filter_eq (h : Change w w') (hw : Sound w) {a generation : ℕ} {o : MutableOverlay}
    (ho : w.overlays[a]? = some o) (hle : generation ≤ o.generation) :
    (w'.heap.log a).entries.filter (OverlayEntry.visible generation) =
      (w.heap.log a).entries.filter (OverlayEntry.visible generation) := by
  cases h with
  | same hheap _ => rw [hheap]
  | @append o' new ho' hne hnew hkeys hheap hoverlays =>
    rw [hheap]
    by_cases ha : o'.log = a
    · subst ha
      rw [ho'] at ho
      cases ho
      have hlt : o.log < w.heap.length := hw.size ▸ (List.getElem?_eq_some_iff.mp ho').1
      have hnone : new.filter (OverlayEntry.visible generation) = [] := by
        refine filter_eq_nil_iff.mpr fun e he => ?_
        rw [OverlayEntry.visible, decide_eq_true_eq, hnew e he]
        omega
      change ((Heap.log (w.heap.modify o.log _) o.log).entries).filter _ = _
      rw [log_modify_self hlt, VersionLog.entries_pushAll, filter_append, hnone, append_nil]
    · change ((Heap.log (w.heap.modify o'.log _) a).entries).filter _ = _
      rw [log_modify_of_ne ha]
  | fork _ hheap _ => rw [hheap, log_concat]

/-- **A covered snapshot keeps its entries.** -/
theorem entries_eq (h : Change w w') (hw : Sound w) {s : OverlaySnapshot}
    (hs : Covered w.overlays s) : s.entries w'.heap = s.entries w.heap := by
  induction s with
  | root generation log =>
    obtain ⟨o, ho, hle⟩ := hs
    exact h.filter_eq hw ho hle
  | fork generation log parent ih =>
    obtain ⟨⟨o, ho, hle⟩, hparent⟩ := hs
    rw [OverlaySnapshot.entries, OverlaySnapshot.entries, ih hparent, h.filter_eq hw ho hle]

end Change

/-! ## The invariant holds along a run -/

variable {o : MutableOverlay}

theorem SoundOverlay.frame (ho : SoundOverlay w.heap w.overlays o) (h : Change w w')
    (hw : Sound w) (hhome : w'.overlays[o.log]? = some o)
    (hlog : w'.heap.log o.log = w.heap.log o.log) : SoundOverlay w'.heap w'.overlays o where
  home := hhome
  tokens key := by rw [hlog, ho.tokens]
  within e he := ho.within e (hlog ▸ he)
  chronicle := by
    rw [h.entries_eq hw ho.covered]
    exact ho.chronicle
  parent s hs := h.covered (ho.parent s hs)

theorem SoundOverlay.entries_append {new : List OverlayEntry}
    (ho : SoundOverlay w.heap w.overlays o) (h : Change w w') (hw : Sound w)
    (hnew : ∀ e ∈ new, e.generation = o.generation + 1)
    (hheap : w'.heap = (o.append w.heap new (o.generation + 1)).2) :
    (w'.heap.log o.log).entries = (w.heap.log o.log).entries ++ new ∧
      (o.append w.heap new (o.generation + 1)).1.snapshot.entries w'.heap =
        o.snapshot.entries w.heap ++ new := by
  have hlt : o.log < w.heap.length := hw.size ▸ (List.getElem?_eq_some_iff.mp ho.home).1
  have hlog : (w'.heap.log o.log).entries = (w.heap.log o.log).entries ++ new := by
    rw [hheap]
    change (Heap.log (w.heap.modify o.log _) o.log).entries = _
    rw [log_modify_self hlt, VersionLog.entries_pushAll]
  refine ⟨hlog, ?_⟩
  have hinherited : o.inherited w'.heap = o.inherited w.heap := by
    unfold MutableOverlay.inherited
    cases hp : o.parent with
    | none => rfl
    | some s => exact h.entries_eq hw (ho.parent s hp)
  have hvisible : ((w.heap.log o.log).entries ++ new).filter
      (OverlayEntry.visible (o.generation + 1)) = (w.heap.log o.log).entries ++ new := by
    refine filter_eq_self.mpr fun e he => decide_eq_true ?_
    rcases mem_append.mp he with he | he
    · exact le_trans (ho.within e he) (Nat.le_succ _)
    · exact le_of_eq (hnew e he)
  rw [MutableOverlay.snapshot_entries, MutableOverlay.snapshot_entries, ho.filter_log]
  change o.inherited w'.heap ++ (w'.heap.log o.log).entries.filter _ = _
  rw [hinherited, hlog, append_assoc]
  exact congrArg _ hvisible

theorem SoundOverlay.append {o : MutableOverlay} {new : List OverlayEntry}
    (ho : SoundOverlay w.heap w.overlays o) (h : Change w w') (hw : Sound w) (hne : new ≠ [])
    (hnew : ∀ e ∈ new, e.generation = o.generation + 1)
    (hkeys : (new.map OverlayEntry.key).Nodup)
    (hheap : w'.heap = (o.append w.heap new (o.generation + 1)).2)
    (hhome : w'.overlays[o.log]? = some (o.append w.heap new (o.generation + 1)).1) :
    SoundOverlay w'.heap w'.overlays (o.append w.heap new (o.generation + 1)).1 := by
  obtain ⟨hlog, hentries⟩ := ho.entries_append h hw hnew hheap
  refine ⟨hhome, fun key => ?_, fun e he => ?_, ?_, fun s hs => h.covered (ho.parent s hs)⟩
  · change (new.foldl _ o.ownerTokens).get key = (newest _ key (w'.heap.log o.log).entries).map _
    rw [get_foldl_insert OverlayEntry.key OverlayEntry.ownerToken, ho.tokens, hlog, newest_append]
    cases newest OverlayEntry.key key new <;> rfl
  · have he' : e ∈ (w.heap.log o.log).entries ++ new := hlog ▸ he
    rcases mem_append.mp he' with he | he
    · exact le_trans (ho.within e he) (Nat.le_succ _)
    · exact le_of_eq (hnew e he)
  · rw [hentries]
    exact ho.chronicle.append hne hnew hkeys

theorem SoundOverlay.fork {s : OverlaySnapshot} (h : Change w w') (hw : Sound w)
    (hs : s ∈ w.snapshots) (hheap : w'.heap = w.heap ++ [.empty])
    (hoverlays : w'.overlays = w.overlays ++ [.forkFromSnapshot s w.heap.length]) :
    SoundOverlay w'.heap w'.overlays (.forkFromSnapshot s w.heap.length) := by
  obtain ⟨hcovered, hchronicle⟩ := hw.snapshot s hs
  have hlog : w'.heap.log w.heap.length = .empty := by
    rw [hheap, log_concat]
    exact getD_eq_default _ _ (le_refl _)
  have hentries : (MutableOverlay.forkFromSnapshot s w.heap.length).snapshot.entries w'.heap =
      s.entries w.heap := by
    change s.entries w'.heap ++ (w'.heap.log w.heap.length).entries.filter _ = _
    rw [hlog, h.entries_eq hw hcovered]
    exact append_nil _
  refine ⟨?_, fun key => ?_, fun e he => ?_, ?_, fun s' hs' => ?_⟩
  · rw [hoverlays]
    change (w.overlays ++ _)[w.heap.length]? = _
    rw [← hw.size, List.getElem?_concat_length]
  · change none = (newest _ key (w'.heap.log w.heap.length).entries).map _
    rw [hlog]
    rfl
  · change e ∈ (w'.heap.log w.heap.length).entries at he
    rw [hlog] at he
    cases he
  · rw [hentries]
    exact hchronicle
  · cases hs'
    exact h.covered hcovered

theorem Change.overlay (h : Change w w') (hw : Sound w) : w'.overlays.length = w'.heap.length ∧
      (∀ i (o : MutableOverlay), w'.overlays[i]? = some o → o.log = i) ∧
      ∀ o ∈ w'.overlays, SoundOverlay w'.heap w'.overlays o := by
  have hc := h
  cases h with
  | same hheap hoverlays =>
    rw [hheap, hoverlays]
    exact ⟨hw.size, hw.address, hw.overlay⟩
  | @append o new ho hne hnew hkeys hheap hoverlays =>
    have hso := hw.overlay o (mem_of_getElem? ho)
    have hat : ∀ i o', w'.overlays[i]? = some o' →
        o.log = i ∧ o' = (o.append w.heap new (o.generation + 1)).1 ∨
          o.log ≠ i ∧ w.overlays[i]? = some o' := by
      intro i o' h'
      rw [hoverlays, List.getElem?_set] at h'
      split_ifs at h' with hi hlt
      · exact .inl ⟨hi, (Option.some.inj h').symm⟩
      · exact .inr ⟨hi, h'⟩
    refine ⟨?_, fun i o' h' => ?_, fun o' ho' => ?_⟩
    · rw [hheap, hoverlays, length_set]
      exact hw.size.trans (length_modify ..).symm
    · rcases hat i o' h' with ⟨hi, rfl⟩ | ⟨-, hold⟩
      · exact hi
      · exact hw.address i o' hold
    · obtain ⟨i, h'⟩ := mem_iff_getElem?.mp ho'
      rcases hat i o' h' with ⟨rfl, rfl⟩ | ⟨hi, hold⟩
      · exact hso.append hc hw hne hnew hkeys hheap h'
      · obtain rfl := hw.address i o' hold
        refine (hw.overlay o' (mem_of_getElem? hold)).frame hc hw h' ?_
        rw [hheap]
        exact log_modify_of_ne hi _
  | @fork s hs hheap hoverlays =>
    have hat : ∀ i o', w'.overlays[i]? = some o' → w.overlays[i]? = some o' ∨ i = w.heap.length ∧
          o' = .forkFromSnapshot s w.heap.length := by
      intro i o' h'
      rw [hoverlays, List.getElem?_append] at h'
      split_ifs at h' with hi
      · exact .inl h'
      · obtain ⟨hlt, rfl⟩ := List.getElem?_eq_some_iff.mp h'
        have hzero : i - w.overlays.length = 0 := by simpa using hlt
        refine .inr ⟨by rw [← hw.size]; omega, by simp⟩
    refine ⟨?_, fun i o' h' => ?_, fun o' ho' => ?_⟩
    · rw [hheap, hoverlays, length_append, length_append, hw.size]
      rfl
    · rcases hat i o' h' with hold | ⟨rfl, rfl⟩
      · exact hw.address i o' hold
      · rfl
    · obtain ⟨i, h'⟩ := mem_iff_getElem?.mp ho'
      rcases hat i o' h' with hold | ⟨rfl, rfl⟩
      · obtain rfl := hw.address i o' hold
        refine (hw.overlay o' (mem_of_getElem? hold)).frame hc hw h' ?_
        rw [hheap, log_concat]
      · exact SoundOverlay.fork hc hw hs hheap hoverlays

/-! ## The steps are such changes -/

section Steps

variable {digest : Bytes → OverlayOwnerToken} {heap : Heap} {o : MutableOverlay}

theorem MutableOverlay.write_eq {key : OverlayKey} {expected : Option OverlayOwnerToken}
    {kind : OverlayEntryKind} {payload : Bytes} {r : OverlayOwnerToken × MutableOverlay × Heap}
    (h : o.write digest heap key expected kind payload = .ok r) :
    r.2 = o.append heap [⟨o.generation + 1, key, r.1, kind, payload⟩] (o.generation + 1) := by
  obtain ⟨-, h⟩ := ite_error_eq_ok.mp h
  obtain ⟨-, h⟩ := ite_error_eq_ok.mp h
  cases h
  rfl

theorem MutableOverlay.checkWrites_ok {seen : SortedSet OverlayKey} {writes : List OverlayWrite} :
    o.checkWrites heap seen writes = .ok () ↔
      (∀ x ∈ writes, x.key ∉ seen ∧ o.currentOwnerToken heap x.key = x.expectedOwnerToken) ∧
        (writes.map OverlayWrite.key).Nodup := by
  induction writes generalizing seen with
  | nil => simp [checkWrites]
  | cons x writes ih =>
    rw [checkWrites, ite_error_eq_ok, ite_error_eq_ok, ih, not_not]
    simp only [forall_mem_cons, map_cons, nodup_cons, mem_insert, not_or,
      mem_map, not_exists, not_and]
    constructor
    · rintro ⟨hseen, htoken, hrest, hnodup⟩
      exact ⟨⟨⟨hseen, htoken⟩, fun y hy => ⟨(hrest y hy).1.2, (hrest y hy).2⟩⟩,
        fun y hy => (hrest y hy).1.1, hnodup⟩
    · rintro ⟨⟨⟨hseen, htoken⟩, hrest⟩, hne, hnodup⟩
      exact ⟨hseen, htoken, fun y hy => ⟨⟨hne y hy, (hrest y hy).1⟩, (hrest y hy).2⟩, hnodup⟩

theorem MutableOverlay.putEntries_eq {writes : List OverlayWrite}
    {r : List OverlayOwnerToken × MutableOverlay × Heap}
    (h : o.putEntriesInNextGeneration digest heap writes = .ok r) :
    r.2 = (o, heap) ∨ writes ≠ [] ∧ (writes.map OverlayWrite.key).Nodup ∧
      r.2 = o.append heap (writes.map (OverlayWrite.entry digest (o.generation + 1)))
        (o.generation + 1) := by
  unfold putEntriesInNextGeneration at h
  by_cases hempty : writes = []
  · rw [if_pos hempty] at h
    cases h
    exact .inl rfl
  · rw [if_neg hempty] at h
    obtain ⟨⟨⟩, hcheck, h⟩ := of_bind h
    obtain ⟨-, h⟩ := ite_error_eq_ok.mp h
    cases h
    exact .inr ⟨hempty, (checkWrites_ok.mp hcheck).2, rfl⟩

theorem commit_change {result : Result (List OverlayOwnerToken × MutableOverlay × Heap)}
    (ho : w.overlays[o.log]? = some o)
    (h : ∀ r, result = .ok r → r.2 = (o, w.heap) ∨ ∃ new : List OverlayEntry, new ≠ [] ∧
      (∀ e ∈ new, e.generation = o.generation + 1) ∧ (new.map OverlayEntry.key).Nodup ∧
      r.2 = o.append w.heap new (o.generation + 1)) :
    Change w (w.commit o.log result).2 := by
  cases result with
  | error e => exact .same rfl rfl
  | ok r =>
    obtain ⟨tokens, o', heap'⟩ := r
    rcases h _ rfl with hsame | ⟨new, hne, hnew, hkeys, happend⟩
    · cases hsame
      refine .same rfl ?_
      obtain ⟨hlt, hget⟩ := List.getElem?_eq_some_iff.mp ho
      exact (congrArg (w.overlays.set o.log) hget.symm).trans (set_getElem_self hlt)
    · exact .append ho hne hnew hkeys (congrArg Prod.snd happend)
        (congrArg (w.overlays.set o.log) (congrArg Prod.fst happend))

theorem commit_single {key : OverlayKey} {expected : Option OverlayOwnerToken}
    {kind : OverlayEntryKind} {payload : Bytes} (ho : w.overlays[o.log]? = some o) :
    Change w (w.commit o.log (single (o.write digest w.heap key expected kind payload))).2 := by
  refine commit_change ho fun r hr => .inr ?_
  cases hwrite : o.write digest w.heap key expected kind payload with
  | error e =>
    rw [hwrite] at hr
    cases hr
  | ok r' =>
    rw [hwrite] at hr
    cases hr
    refine ⟨_, cons_ne_nil _ _, fun e he => ?_, ?_, MutableOverlay.write_eq hwrite⟩
    · rw [mem_singleton.mp he]
    · exact nodup_singleton _

theorem step_change (hw : Sound w) (op : Op) : Change w (step digest op w).2 := by
  cases op with
  | putValue i | putTombstone i =>
    unfold step
    dsimp only
    cases ho : w.overlays[i]? with
    | none => exact .same rfl rfl
    | some o =>
      obtain rfl := hw.address i o ho
      exact commit_single ho
  | putEntriesInNextGeneration i writes =>
    unfold step
    dsimp only
    cases ho : w.overlays[i]? with
    | none => exact .same rfl rfl
    | some o =>
      obtain rfl := hw.address i o ho
      refine commit_change ho fun r hr => ?_
      rcases MutableOverlay.putEntries_eq hr with hsame | ⟨hne, hkeys, happend⟩
      · exact .inl hsame
      · refine .inr ⟨_, by simpa using hne, fun e he => ?_, ?_, happend⟩
        · obtain ⟨x, -, rfl⟩ := mem_map.mp he
          rfl
        · rw [map_map]
          exact hkeys
  | snapshot i | checkpoint i =>
    unfold step
    dsimp only
    cases w.overlays[i]? <;> exact .same rfl rfl
  | forkFromSnapshot j =>
    unfold step
    dsimp only
    cases hs : w.snapshots[j]? with
    | none => exact .same rfl rfl
    | some s => exact .fork (mem_of_getElem? hs) rfl rfl

theorem snapshots_commit (i : ℕ)
    (result : Result (List OverlayOwnerToken × MutableOverlay × Heap)) :
    (w.commit i result).2.snapshots = w.snapshots := by
  cases result <;> rfl

variable {s : OverlaySnapshot}

theorem step_snapshots {op : Op} (hs : s ∈ (step digest op w).2.snapshots) :
    s ∈ w.snapshots ∨ ∃ o ∈ w.overlays, s = o.snapshot := by
  unfold step at hs
  cases op with
  | snapshot i =>
    dsimp only at hs
    split at hs
    · exact .inl hs
    · rename_i o ho
      rcases mem_append.mp hs with hs | hs
      · exact .inl hs
      · exact .inr ⟨o, mem_of_getElem? ho, mem_singleton.mp hs⟩
  | checkpoint | forkFromSnapshot =>
    dsimp only at hs
    split at hs <;> exact .inl hs
  | _ =>
    dsimp only at hs
    split at hs
    · exact .inl hs
    · rw [snapshots_commit] at hs
      exact .inl hs

/-- **A step keeps the invariant.** -/
theorem Sound.after (hw : Sound w) (op : Op) : Sound (step digest op w).2 := by
  have hchange : Change w (step digest op w).2 := step_change hw op
  obtain ⟨hsize, haddress, hoverlay⟩ := hchange.overlay hw
  refine ⟨hsize, haddress, hoverlay, fun s hs => ?_⟩
  rcases step_snapshots hs with hs | ⟨o, ho, rfl⟩
  · obtain ⟨hcovered, hchronicle⟩ := hw.snapshot s hs
    rw [hchange.entries_eq hw hcovered]
    exact ⟨hchange.covered hcovered, hchronicle⟩
  · have hso := hw.overlay o ho
    rw [hchange.entries_eq hw hso.covered, o.snapshot_generation]
    exact ⟨hchange.covered hso.covered, hso.chronicle⟩

theorem Sound.of_run (l : List Op) : Sound (Machine.run (step digest) l .start) :=
  Machine.run_invariant (P := Sound) (fun _ op _ hw => hw.after op)
    (Machine.along_of_forall (G := fun _ _ => True) (fun _ _ => trivial) l _) .start

theorem Sound.entries_run (hw : Sound w) (hs : Covered w.overlays s) (l : List Op) :
    s.entries (Machine.run (step digest) l w).heap = s.entries w.heap := by
  induction l generalizing w with
  | nil => rfl
  | cons op l ih =>
    have hchange : Change w (step digest op w).2 := step_change hw op
    exact (ih (hw.after op) (hchange.covered hs)).trans (hchange.entries_eq hw hs)

/-! ## The reads of a snapshot -/

variable (scopes : List OverlayOwnerScope)

def ownerScopeOf (key : OverlayKey) : Option OverlayOwnerScope :=
  match matchingOwnerScope scopes key with
  | .ok scope => scope
  | .error _ => none

theorem matchingOwnerScope_eq (key : OverlayKey) :
    matchingOwnerScope scopes key = .ok (ownerScopeOf scopes key) := by
  obtain ⟨scope, h⟩ := matchingOwnerScope_ok scopes key
  rw [ownerScopeOf, h]

variable {generation : ℕ}

theorem selectEntry_eq {e : OverlayEntry}
    (he : e.generation ≤ generation) (m : SortedMap OverlayKey OverlayPromotionEntry) :
    OverlaySnapshot.selectEntry generation scopes m e =
      .ok ((ownerScopeOf scopes e.key).elim m fun scope => m.insert e.key (e.promote scope)) := by
  unfold OverlaySnapshot.selectEntry
  rw [if_neg (not_lt.mpr he), matchingOwnerScope_eq, ok_bind]
  cases ownerScopeOf scopes e.key <;> rfl

variable {l : List OverlayEntry}

theorem selectEntries_ok
    (hl : ∀ e ∈ l, e.generation ≤ generation) (m : SortedMap OverlayKey OverlayPromotionEntry) :
    ∃ m', l.foldlM (OverlaySnapshot.selectEntry generation scopes) m = .ok m' ∧
      ∀ key, m'.get key = ((newest OverlayEntry.key key l).bind fun e =>
        (ownerScopeOf scopes key).map e.promote).or (m.get key) := by
  induction l generalizing m with
  | nil => exact ⟨m, rfl, fun _ => rfl⟩
  | cons e l ih =>
    obtain ⟨he, hl⟩ := forall_mem_cons.mp hl
    obtain ⟨m', hm', hget⟩ := ih hl
      ((ownerScopeOf scopes e.key).elim m fun scope => m.insert e.key (e.promote scope))
    refine ⟨m', ?_, fun key => ?_⟩
    · rw [foldlM_cons, selectEntry_eq scopes he, ok_bind, hm']
    · have hcons := newest_append OverlayEntry.key key [e] l
      rw [singleton_append, newest_singleton] at hcons
      rw [hget, hcons]
      by_cases hk : e.key = key
      · subst hk
        cases newest OverlayEntry.key e.key l <;> cases ownerScopeOf scopes e.key <;> simp
      · rw [if_neg hk, Option.or_none]
        congr 1
        cases ownerScopeOf scopes e.key with
        | none => rfl
        | some scope => rw [Option.elim_some, get_insert, if_neg hk]

/-- A snapshot reads what an overlay has. -/
structure Reflects (heap : Heap) (o : MutableOverlay) (heap' : Heap) (s : OverlaySnapshot) :
    Prop where
  read : ∀ key baseRead,
    s.readComposite heap' key baseRead = readEntry (o.currentEntry heap key) baseRead key
  token : ∀ key, s.ownerToken heap' key = o.currentOwnerToken heap key
  select : ∀ scopes, ∃ entries : List OverlayPromotionEntry,
    s.selectOwnerScopes heap' scopes = .ok ⟨o.generation, scopes, entries⟩ ∧
      (entries.map OverlayPromotionEntry.key).Pairwise (· < ·) ∧
      ∀ p, p ∈ entries ↔ ∃ e scope, o.currentEntry heap e.key = some e ∧
        matchingOwnerScope scopes e.key = .ok (some scope) ∧ p = e.promote scope

/-- What a selection of the entries of an overlay has. -/
theorem selectOwnerScopes_eq {heap' : Heap} (hentries : s.entries heap' = o.snapshot.entries heap)
    (hgeneration : s.generation = o.generation)
    (hle : ∀ e ∈ o.snapshot.entries heap, e.generation ≤ o.generation)
    (scopes : List OverlayOwnerScope) : ∃ entries : List OverlayPromotionEntry,
      s.selectOwnerScopes heap' scopes = .ok ⟨o.generation, scopes, entries⟩ ∧
        (entries.map OverlayPromotionEntry.key).Pairwise (· < ·) ∧
        ∀ p, p ∈ entries ↔ ∃ e scope, o.currentEntry heap e.key = some e ∧
          matchingOwnerScope scopes e.key = .ok (some scope) ∧ p = e.promote scope := by
  obtain ⟨m, hm, hget⟩ := selectEntries_ok scopes hle .empty
  have hmem : ∀ key p, m.get key = some p ↔ ∃ e scope, o.currentEntry heap key = some e ∧
      ownerScopeOf scopes key = some scope ∧ p = e.promote scope := by
    intro key p
    rw [hget, get_empty, Option.or_none, ← currentEntry_eq, MutableOverlay.currentEntry_snapshot]
    simp only [Option.bind_eq_some_iff, Option.map_eq_some_iff]
    exact ⟨fun ⟨e, he, scope, hs, hp⟩ => ⟨e, scope, he, hs, hp.symm⟩,
      fun ⟨e, scope, he, hs, hp⟩ => ⟨e, he, scope, hs, hp.symm⟩⟩
  have hkey : ∀ key p, m.get key = some p → p.key = key := by
    intro key p h
    obtain ⟨e, scope, he, -, rfl⟩ := (hmem key p).mp h
    exact MutableOverlay.key_of_current he
  refine ⟨m.entries.map Prod.snd, ?_, ?_, fun p => ?_⟩
  · rw [OverlaySnapshot.selectOwnerScopes, hentries, hgeneration, hm]
    rfl
  · have hkeys : (m.entries.map Prod.snd).map OverlayPromotionEntry.key = m.entries.map Prod.fst := by
      rw [map_map]
      exact map_congr_left fun item hitem =>
        hkey item.1 item.2 (get_eq_some.mpr hitem)
    rw [hkeys]
    exact pairwise_map.mpr m.ascending
  · rw [mem_map]
    constructor
    · rintro ⟨⟨key, p⟩, hitem, rfl⟩
      obtain ⟨e, scope, he, hscope, rfl⟩ := (hmem key p).mp (get_eq_some.mpr hitem)
      obtain rfl := MutableOverlay.key_of_current he
      exact ⟨e, scope, he, by rw [matchingOwnerScope_eq, hscope], rfl⟩
    · rintro ⟨e, scope, he, hscope, rfl⟩
      rw [matchingOwnerScope_eq] at hscope
      exact ⟨(e.key, e.promote scope), get_eq_some.mp
        ((hmem _ _).mpr ⟨e, scope, he, Except.ok.inj hscope, rfl⟩), rfl⟩

theorem SoundOverlay.reflects {heap' : Heap} {overlays : List MutableOverlay}
    (ho : SoundOverlay heap overlays o) (hentries : s.entries heap' = o.snapshot.entries heap)
    (hgeneration : s.generation = o.generation) : Reflects heap o heap' s := by
  have hcurrent : ∀ key, s.currentEntry heap' key = o.currentEntry heap key := by
    intro key
    rw [currentEntry_eq, hentries, ← currentEntry_eq, MutableOverlay.currentEntry_snapshot]
  refine ⟨fun key baseRead => ?_, fun key => ?_, fun scopes => ?_⟩
  · rw [OverlaySnapshot.readComposite, hcurrent]
  · rw [OverlaySnapshot.ownerToken, hcurrent, ho.currentOwnerToken_eq]
  · exact selectOwnerScopes_eq hentries hgeneration (fun e he => ho.chronicle.le he) scopes

/-! ## When a write succeeds -/

section Writes

variable {heap : Heap} {overlays : List MutableOverlay} {o : MutableOverlay}

theorem write_ok (ho : SoundOverlay heap overlays o) (key : OverlayKey)
    (expected : Option OverlayOwnerToken) (kind : OverlayEntryKind) (payload : Bytes) :
    (∃ r, o.write digest heap key expected kind payload = .ok r) ↔
      expected = (o.currentEntry heap key).map OverlayEntry.ownerToken ∧
        o.generation + 1 < 2 ^ 64 := by
  unfold MutableOverlay.write
  simp only [ite_error_eq_ok, not_not, not_le, exists_and_left, ho.currentOwnerToken_eq]
  constructor
  · rintro ⟨h, hlt, -⟩
    exact ⟨h.symm, hlt⟩
  · rintro ⟨h, hlt⟩
    exact ⟨h.symm, hlt, _, rfl⟩

theorem putEntries_ok (ho : SoundOverlay heap overlays o) (writes : List OverlayWrite) :
    (∃ r, o.putEntriesInNextGeneration digest heap writes = .ok r) ↔
      writes = [] ∨ (writes.map OverlayWrite.key).Nodup ∧ (∀ x ∈ writes, x.expectedOwnerToken =
          (o.currentEntry heap x.key).map OverlayEntry.ownerToken) ∧
        o.generation + 1 < 2 ^ 64 := by
  unfold MutableOverlay.putEntriesInNextGeneration
  by_cases hempty : writes = []
  · rw [if_pos hempty]
    exact ⟨fun _ => .inl hempty, fun _ => ⟨_, rfl⟩⟩
  · rw [if_neg hempty]
    constructor
    · rintro ⟨r, h⟩
      obtain ⟨⟨⟩, hcheck, h⟩ := of_bind h
      obtain ⟨hlt, -⟩ := ite_error_eq_ok.mp h
      obtain ⟨htokens, hnodup⟩ := MutableOverlay.checkWrites_ok.mp hcheck
      refine .inr ⟨hnodup, fun x hx => ?_, not_le.mp hlt⟩
      rw [← (htokens x hx).2, ho.currentOwnerToken_eq]
    · rintro (h | ⟨hnodup, htokens, hlt⟩)
      · exact absurd h hempty
      · have hcheck : o.checkWrites heap .empty writes = .ok () := by
          refine MutableOverlay.checkWrites_ok.mpr ⟨fun x hx => ⟨notMem_empty _, ?_⟩, hnodup⟩
          rw [ho.currentOwnerToken_eq, htokens x hx]
        rw [hcheck, ok_bind, if_neg (not_le.mpr hlt)]
        exact ⟨_, rfl⟩

end Writes

/-! ## An export can be imported -/

open MutableOverlay (Import importEntry importEntries)

/-- The entries so far are imported. -/
structure Imported (heap : Heap) (l : List OverlayEntry) (state : Import) : Prop where
  generation : state.overlay.generation = lastGeneration l
  address : state.overlay.log = heap.length
  parent : state.overlay.parent = none
  tokens : ∀ key, state.overlay.ownerTokens.get key =
    (newest OverlayEntry.key key l).map OverlayEntry.ownerToken
  log : ∃ log : Log, state.heap = heap ++ [log] ∧ log.entries = l
  seen : ∀ e : OverlayEntry, toLex (e.generation, e.key) ∈ state.seen →
    ∃ a ∈ l, a.generation = e.generation ∧ a.key = e.key

theorem Imported.nil (heap : Heap) :
    Imported heap [] ⟨.new heap.length, heap ++ [.empty], .empty⟩ :=
  ⟨rfl, rfl, rfl, fun _ => rfl, ⟨.empty, rfl, rfl⟩, fun _ h => (notMem_empty _ h).elim⟩

theorem Imported.concat {e : OverlayEntry} {state : Import} (h : Imported heap l state)
    (hl : Chronicle (l ++ [e]) generation) :
    ∃ state', importEntry state e = .ok state' ∧ Imported heap (l ++ [e]) state' := by
  obtain ⟨-, -, hpos, hbefore⟩ := hl.of_concat
  have hle : state.overlay.generation ≤ e.generation := h.generation ▸ hl.lastGeneration_le
  have hmax : max state.overlay.generation e.generation = e.generation := max_eq_right hle
  have hseen : toLex (e.generation, e.key) ∉ state.seen := by
    intro hmem
    obtain ⟨a, ha, hgen, hkey⟩ := h.seen e hmem
    rcases hbefore a ha with hlt | ⟨-, hne⟩
    · omega
    · exact hne hkey
  have hstep : importEntry state e = .ok ⟨(state.overlay.append state.heap [e] e.generation).1,
        (state.overlay.append state.heap [e] e.generation).2,
        state.seen.insert (toLex (e.generation, e.key))⟩ := by
    unfold importEntry
    rw [if_neg (Nat.pos_iff_ne_zero.mp hpos), ok_bind]
    dsimp only
    rw [if_neg (not_lt.mpr hle), if_neg hseen, hmax]
  refine ⟨_, hstep, ?_, h.address, h.parent, fun key => ?_, ?_, fun a ha => ?_⟩
  · exact (Chronicle.lastGeneration_concat l e).symm
  · change (state.overlay.ownerTokens.insert e.key e.ownerToken).get key = _
    rw [get_insert, newest_concat, h.tokens]
    split_ifs <;> rfl
  · obtain ⟨log, hheap, hentries⟩ := h.log
    refine ⟨log.pushAll [e], ?_, ?_⟩
    · change state.heap.modify state.overlay.log _ = _
      rw [hheap, h.address]
      exact modify_concat heap log _
    · rw [VersionLog.entries_pushAll, hentries]
  · rcases (mem_insert ..).mp ha with ha | ha
    · obtain ⟨hgen, hkey⟩ := Prod.mk.inj (toLex.injective ha)
      exact ⟨e, by simp, hgen.symm, hkey.symm⟩
    · obtain ⟨b, hb, hab⟩ := h.seen a ha
      exact ⟨b, mem_append_left _ hb, hab⟩

theorem imported_of_chronicle (heap : Heap) (hl : Chronicle l generation) :
    ∃ state, l.foldlM importEntry ⟨.new heap.length, heap ++ [.empty], .empty⟩ = .ok state ∧
      Imported heap l state := by
  induction l using List.reverseRecOn generalizing generation with
  | nil => exact ⟨_, rfl, .nil heap⟩
  | append_singleton l e ih =>
    obtain ⟨state, hstate, himported⟩ := ih hl.of_concat.1
    obtain ⟨state', hstep, himported'⟩ := himported.concat hl
    refine ⟨state', ?_, himported'⟩
    rw [foldlM_append, hstate, ok_bind, foldlM_cons, hstep]
    rfl

/-- An overlay has the reads of another one. -/
structure SameReads (heap : Heap) (o : MutableOverlay) (heap' : Heap) (o' : MutableOverlay) :
    Prop where
  generation : o'.generation = o.generation
  current : ∀ key, o'.currentEntry heap' key = o.currentEntry heap key
  token : ∀ key, o'.currentOwnerToken heap' key = o.currentOwnerToken heap key
  snapshot : Reflects heap o heap' o'.snapshot

theorem import_export {overlays : List MutableOverlay} (ho : SoundOverlay heap overlays o) :
    ∃ o' heap', importEntries heap (o.exportEntries heap) = .ok (o', heap') ∧
      SameReads heap o heap' o' := by
  obtain ⟨⟨o', heap', seen⟩, hstate, himported⟩ := imported_of_chronicle heap ho.chronicle
  obtain ⟨hgeneration, haddress, hparent, htokens, ⟨log, hheap, hlog⟩, -⟩ := himported
  dsimp only at hgeneration haddress hparent htokens hheap
  have hgen : o'.generation = o.generation := hgeneration.trans ho.chronicle.last
  have hentries : o'.snapshot.entries heap' = o.snapshot.entries heap := by
    have hat : heap'.log o'.log = log := by
      rw [hheap, haddress]
      simp [Heap.log]
    rw [o'.snapshot_entries, MutableOverlay.inherited, hparent, hat, hlog]
    refine (nil_append _).trans (filter_eq_self.mpr fun e he => decide_eq_true ?_)
    rw [hgen]
    exact ho.chronicle.le he
  have hcurrent : ∀ key, o'.currentEntry heap' key = o.currentEntry heap key := by
    intro key
    rw [← o'.currentEntry_snapshot, ← o.currentEntry_snapshot, currentEntry_eq,
      currentEntry_eq, hentries]
  refine ⟨o', heap', ?_, hgen, hcurrent, fun key => ?_, ?_⟩
  · rw [importEntries, MutableOverlay.exportEntries, hstate]
    rfl
  · rw [ho.currentOwnerToken_eq, ← o.currentEntry_snapshot, currentEntry_eq,
      MutableOverlay.currentOwnerToken, htokens, hparent]
    cases newest OverlayEntry.key key (o.snapshot.entries heap) <;> rfl
  · exact ho.reflects hentries (o'.snapshot_generation.trans hgen)

/-! ## Every run -/

/-- Snapshots, writes and the import of one overlay of a world. -/
structure Isolated (digest : Bytes → OverlayOwnerToken) (w : World) (i : ℕ) (o : MutableOverlay) :
    Prop where
  snapshot : (step digest (.snapshot i) w).1 = .snapshot o.snapshot ∧
    ∀ l, Reflects w.heap o (Machine.run (step digest) (.snapshot i :: l) w).heap o.snapshot
  checkpoint : (step digest (.checkpoint i) w).1 = .checkpoint o.checkpoint ∧
    ∀ l, Reflects w.heap o (Machine.run (step digest) (.checkpoint i :: l) w).heap
      o.checkpoint.snapshot
  putValue : ∀ key expected payload,
    (∃ tokens, (step digest (.putValue i key expected payload) w).1 = .written (.ok tokens)) ↔
      expected = (o.currentEntry w.heap key).map OverlayEntry.ownerToken ∧
        o.generation + 1 < 2 ^ 64
  putTombstone : ∀ key expected,
    (∃ tokens, (step digest (.putTombstone i key expected) w).1 = .written (.ok tokens)) ↔
      expected = (o.currentEntry w.heap key).map OverlayEntry.ownerToken ∧
        o.generation + 1 < 2 ^ 64
  putEntries : ∀ writes,
    (∃ tokens, (step digest (.putEntriesInNextGeneration i writes) w).1 = .written (.ok tokens)) ↔
      writes = [] ∨ (writes.map OverlayWrite.key).Nodup ∧
        (∀ x ∈ writes, x.expectedOwnerToken =
          (o.currentEntry w.heap x.key).map OverlayEntry.ownerToken) ∧
        o.generation + 1 < 2 ^ 64
  imported : ∃ o' heap', importEntries w.heap (o.exportEntries w.heap) = .ok (o', heap') ∧
    SameReads w.heap o heap' o'

theorem commit_ok {i : ℕ}
    {result : Result (List OverlayOwnerToken × MutableOverlay × Heap)} :
    (∃ tokens, (w.commit i result).1 = .written (.ok tokens)) ↔ ∃ r, result = .ok r := by
  cases result with
  | error e => simp [World.commit]
  | ok r => simp [World.commit]

theorem single_ok {result : Result (OverlayOwnerToken × MutableOverlay × Heap)} :
    (∃ r, single result = .ok r) ↔ ∃ r, result = .ok r := by
  cases result with
  | error e => simp [single, Except.map]
  | ok r => simp [single, Except.map]

/-- **Snapshots are not disturbed, writes succeed exactly with current tokens, and an export can be
imported.** -/
theorem isolation (digest : Bytes → OverlayOwnerToken) (l : List Op) (i : ℕ) (o : MutableOverlay)
    (ho : (Machine.run (step digest) l .start).overlays[i]? = some o) :
    Isolated digest (Machine.run (step digest) l .start) i o := by
  have hw : Sound (Machine.run (step digest) l .start) := .of_run l
  generalize Machine.run (step digest) l .start = w at ho hw
  have hso := hw.overlay o (mem_of_getElem? ho)
  have hreflects : ∀ l, Reflects w.heap o (Machine.run (step digest) l w).heap o.snapshot :=
    fun l => hso.reflects (hw.entries_run hso.covered l) o.snapshot_generation
  refine ⟨⟨?_, fun l => hreflects (.snapshot i :: l)⟩, ⟨?_, fun l => hreflects (.checkpoint i :: l)⟩,
    fun key expected payload => ?_, fun key expected => ?_, fun writes => ?_, import_export hso⟩
  · simp only [step, ho]
  · simp only [step, ho]
  · simp only [step, ho]
    rw [commit_ok, single_ok]
    exact write_ok hso key expected .value payload
  · simp only [step, ho]
    rw [commit_ok, single_ok]
    exact write_ok hso key expected .tombstone []
  · simp only [step, ho]
    rw [commit_ok]
    exact putEntries_ok hso writes

/-- The overlay that an operation writes to. -/
def Op.target : Op → Option ℕ
  | .putValue i .. | .putTombstone i .. | .putEntriesInNextGeneration i _ => some i
  | _ => none

theorem overlay_step {i : ℕ} {op : Op} (h : op.target ≠ some i) (ho : w.overlays[i]? = some o) :
    (step digest op w).2.overlays[i]? = some o := by
  cases op with
  | snapshot | checkpoint => simp only [step]; split <;> exact ho
  | forkFromSnapshot =>
    simp only [step]
    split
    · exact ho
    · exact (getElem?_append_left (List.getElem?_eq_some_iff.mp ho).1).trans ho
  | _ =>
    simp only [step]
    split
    · exact ho
    · unfold World.commit
      split
      · exact ho
      · exact (getElem?_set_ne fun hj => h (congrArg some hj)).trans ho

/-- **An overlay is changed only by what is written to it**, not by its forks. -/
theorem reads_of_others (l l' : List Op) {i : ℕ} :
    let w := Machine.run (step digest) l .start
    let w' := Machine.run (step digest) l' w
    w.overlays[i]? = some o → Machine.Along (step digest) (fun _ op => op.target ≠ some i) l' w →
      w'.overlays[i]? = some o ∧ ∀ key, o.currentEntry w'.heap key = o.currentEntry w.heap key := by
  intro w w' ho h
  have hw : Sound w := .of_run l
  refine ⟨Machine.run_invariant (P := fun w => w.overlays[i]? = some o)
    (fun _ _ hop ho => overlay_step hop ho) h ho, fun key => ?_⟩
  rw [← o.currentEntry_snapshot, ← o.currentEntry_snapshot, currentEntry_eq, currentEntry_eq,
    hw.entries_run (hw.overlay o (mem_of_getElem? ho)).covered]

end Steps

namespace Sample

def forked : List Op := [.putValue 0 zeroKey none [1], .snapshot 0, .forkFromSnapshot 0]

/-- The fork of a snapshot of an overlay with a value. -/
def forkedOverlay : MutableOverlay := .forkFromSnapshot (.root 1 0) 1

theorem isolation_forked :
    Isolated digest (Machine.run (step digest) forked .start) 1 forkedOverlay :=
  isolation digest forked 1 forkedOverlay rfl

/-- The value is removed in the first overlay, and the fork still reads it. -/
theorem reads_of_fork :
    let w := Machine.run (step digest) forked .start
    let w' := Machine.run (step digest) [.putTombstone 0 zeroKey (some (digest []))] w
    (w'.overlays[0]?.bind fun o => (o.currentEntry w'.heap zeroKey).map OverlayEntry.kind) =
        some .tombstone ∧
      (forkedOverlay.currentEntry w'.heap zeroKey).map OverlayEntry.payload = some [1] := by
  intro w w'
  have hreads : ∀ key, forkedOverlay.currentEntry w'.heap key = forkedOverlay.currentEntry w.heap key :=
    (reads_of_others (i := 1) forked _ rfl (by exact ⟨by decide, trivial⟩)).2
  refine ⟨by decide +kernel, ?_⟩
  rw [hreads]
  decide +kernel

/-- A transaction that writes one key twice, each time with the token of its current entry. -/
def twice : List OverlayWrite := [⟨zeroKey, none, .value, [1]⟩, ⟨zeroKey, none, .value, [2]⟩]

/-- **A transaction with the tokens of the current entries fails if it has a key twice.** -/
theorem twice_fails : (∀ x ∈ twice, x.expectedOwnerToken =
      ((MutableOverlay.new 0).currentEntry World.start.heap x.key).map OverlayEntry.ownerToken) ∧
    ∃ e, (step digest (.putEntriesInNextGeneration 0 twice) .start).1 = .written (.error e) := by
  have hcheck : (MutableOverlay.new 0).checkWrites World.start.heap .empty twice =
      .error (.invalid "overlay transaction cannot write the same key twice") := by
    simp [twice, MutableOverlay.checkWrites,
      show (MutableOverlay.new 0).currentOwnerToken World.start.heap zeroKey = none from rfl]
  refine ⟨fun x hx => ?_, .invalid "overlay transaction cannot write the same key twice", ?_⟩
  · rcases mem_pair.mp hx with rfl | rfl <;> rfl
  · have hfirst : World.start.overlays[0]? = some (.new 0) := rfl
    have hne : twice ≠ [] := cons_ne_nil _ _
    simp only [step, hfirst, MutableOverlay.putEntriesInNextGeneration, if_neg hne, hcheck,
      error_bind, World.commit]

end Sample

end UldrenLoom.Overlay
