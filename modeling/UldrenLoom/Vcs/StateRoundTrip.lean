import UldrenLoom.Vcs.FreeDigest
import UldrenLoom.Vcs.State

/-!
# What saving and loading keeps

* **`Loom.roundTrips_iff`**: what an engine stands for is saved and loaded again exactly if a lazy
  engine has changed nothing that its pending sections lack, and the names of the registry are those
  of its workspaces. Loading and importing that fail change nothing.
* **`Loom.ensureFullStateLoaded_keeps_iff`**: a lazy engine stays lazy when its sections cannot be
  read only if they can be read; `Loom.failed_load_forgets`: a failed read makes the engine take its
  empty maps for the state, and save them.
-/

namespace UldrenLoom.Vcs.Loom

open ByteString Fallible Effect Object

variable {D : Type} [DigestCode D] [LinearOrder D] [ToString D] {hash : Stored D → D}

/-! ## Failed loads -/

omit [ToString D] in
theorem importState_error {bytes : Bytes} {M M' : Loom hash} {e : LoomError}
    (h : exec (importState bytes) M = (.error e, M')) : M' = M := by
  rw [importState, exec_lift_bind] at h
  cases hp : (parseState bytes : Result (Persisted D)) with
  | ok p =>
    rw [hp] at h
    cases h
  | error e' =>
    rw [hp] at h
    exact (congrArg Prod.snd h).symm

theorem loadState_error {faults : D → Option LoomError} {root : D} {M M' : Loom hash} {e : LoomError}
    (h : exec (loadState faults root) M = (.error e, M')) : M' = M := by
  rw [loadState, exec_get_bind, exec_lift_bind] at h
  cases hr : M.readObject faults root with
  | error e' =>
    rw [hr] at h
    exact (congrArg Prod.snd h).symm
  | ok o =>
    rw [hr] at h
    cases o with
    | tree entries =>
      dsimp only at h
      rw [exec_loadStateSections] at h
      cases hs : readSections (M.readObject faults) entries with
      | ok p =>
        rw [hs] at h
        cases h
      | error e' =>
        rw [hs] at h
        exact (congrArg Prod.snd h).symm
    | blob | chunkList | commit | tag => exact (congrArg Prod.snd h).symm

/-! ## Round trips -/

/-- A part of a lazy engine: pending, unless it was changed in memory. -/
noncomputable def unlessChanged {α : Type} (new inMemory pending : α) : α :=
  open Classical in if inMemory = new then pending else inMemory

theorem eq_unlessChanged {α : Type} {new inMemory pending : α} :
    pending = unlessChanged new inMemory pending ↔ inMemory = new ∨ inMemory = pending := by
  unfold unlessChanged
  split
  case isTrue h => simp [h]
  case isFalse h => simp [h, eq_comm]

/-- The state an engine stands for, where `p` is in its pending sections: a lazy engine has its
registry in memory, and of the rest what was changed since it was opened. -/
noncomputable def standsFor (L : Loom hash) (p : Persisted D) : Persisted D where
  registry := L.registry
  content := unlessChanged SortedMap.empty L.heap.content p.content
  work := unlessChanged SortedMap.empty L.work p.work
  dirs := unlessChanged SortedMap.empty L.dirs p.dirs
  compression := unlessChanged SortedMap.empty L.compression p.compression
  consumerOffsets := unlessChanged SortedMap.empty L.consumerOffsets p.consumerOffsets
  mergeState := unlessChanged SortedMap.empty L.mergeState p.mergeState
  index := unlessChanged SortedMap.empty L.index p.index
  nextInode := unlessChanged 1 L.nextInode p.nextInode
  nextHandle := unlessChanged 1 L.nextHandle p.nextHandle
  inodes := unlessChanged SortedMap.empty L.inodes p.inodes
  handles := unlessChanged SortedMap.empty L.handles p.handles
  protectedRefs := unlessChanged SortedMap.empty L.protectedRefs p.protectedRefs
  streamLowWaterMarks :=
    unlessChanged SortedMap.empty L.streamLowWaterMarks p.streamLowWaterMarks

/-- No part but the registry was changed in memory to something that `p` lacks. -/
structure Untouched (L : Loom hash) (p : Persisted D) : Prop where
  content : L.heap.content = SortedMap.empty ∨ L.heap.content = p.content
  work : L.work = SortedMap.empty ∨ L.work = p.work
  dirs : L.dirs = SortedMap.empty ∨ L.dirs = p.dirs
  compression : L.compression = SortedMap.empty ∨ L.compression = p.compression
  consumerOffsets : L.consumerOffsets = SortedMap.empty ∨ L.consumerOffsets = p.consumerOffsets
  mergeState : L.mergeState = SortedMap.empty ∨ L.mergeState = p.mergeState
  index : L.index = SortedMap.empty ∨ L.index = p.index
  nextInode : L.nextInode = 1 ∨ L.nextInode = p.nextInode
  nextHandle : L.nextHandle = 1 ∨ L.nextHandle = p.nextHandle
  inodes : L.inodes = SortedMap.empty ∨ L.inodes = p.inodes
  handles : L.handles = SortedMap.empty ∨ L.handles = p.handles
  protectedRefs : L.protectedRefs = SortedMap.empty ∨ L.protectedRefs = p.protectedRefs
  streamLowWaterMarks :
    L.streamLowWaterMarks = SortedMap.empty ∨ L.streamLowWaterMarks = p.streamLowWaterMarks

omit [DigestCode D] [ToString D] in
theorem eq_standsFor_iff {L : Loom hash} {p : Persisted D} :
    { p with registry := L.registry } = L.standsFor p ↔ L.Untouched p := by
  simp only [standsFor, Persisted.mk.injEq, true_and, eq_unlessChanged]
  exact ⟨fun ⟨h1, h2, h3, h4, h5, h6, h7, h8, h9, h10, h11, h12, h13⟩ =>
      ⟨h1, h2, h3, h4, h5, h6, h7, h8, h9, h10, h11, h12, h13⟩,
    fun ⟨h1, h2, h3, h4, h5, h6, h7, h8, h9, h10, h11, h12, h13⟩ =>
      ⟨h1, h2, h3, h4, h5, h6, h7, h8, h9, h10, h11, h12, h13⟩⟩

/-- Saving succeeds, and loading what was saved gives the state the engine stands for. -/
def RoundTrips (L : Loom hash) : Prop := ∃ p root L₁, L.current noFaults = .ok p ∧
  exec (saveState noFaults) L = (.ok root, L₁) ∧
  ∀ M : Loom hash, L₁.heap.store ≤ M.heap.store →
    ∃ M', exec (loadState noFaults root) M = (.ok (), M') ∧ M'.persisted = L.standsFor p

/-- Nothing in memory is missing in pending sections, and the registry has the names of its
workspaces. -/
def Restorable (L : Loom hash) : Prop := ∃ p, L.current noFaults = .ok p ∧
  p.registry.byId = L.registry.byId ∧ L.registry.Exact ∧ L.Untouched p

theorem roundTrips_iff_restorable (hinj : Function.Injective hash) {L : Loom hash}
    (hs : ∀ p, L.current noFaults = .ok p → p.Sized) : L.RoundTrips ↔ L.Restorable := by
  refine exists_congr fun p => ⟨?_, ?_⟩
  · rintro ⟨root, L₁, hcur, hsave, hload⟩
    have hsized := hs p hcur
    obtain ⟨registry, L₂, henc, hsave', -, -, hsaved⟩ := exec_saveState noFaults hinj hcur hsized
    obtain ⟨hroot, rfl⟩ := Prod.ext_iff.mp (hsave'.symm.trans hsave)
    cases hroot
    obtain ⟨reg, hexec, hid, hexact⟩ := loadState_saved hsized henc hsaved
    obtain ⟨M', hexec', hM'⟩ := hload L₂ le_rfl
    obtain ⟨-, rfl⟩ := Prod.ext_iff.mp (hexec.symm.trans hexec')
    have hreg : reg = L.registry := congrArg Persisted.registry hM'
    subst hreg
    exact ⟨hcur, hid.symm, hexact, eq_standsFor_iff.mp hM'⟩
  · rintro ⟨hcur, hid', hexact', hun⟩
    have hsized := hs p hcur
    obtain ⟨registry, L₁, henc, hsave, -, -, hsaved⟩ := exec_saveState noFaults hinj hcur hsized
    refine ⟨_, L₁, hcur, hsave, fun M hM => ?_⟩
    obtain ⟨reg, hexec, hid, hexact⟩ := loadState_saved hsized henc (hsaved.mono hM)
    have hreg : reg = L.registry := Registry.eq_of_exact hexact' hexact (hid.trans hid')
    subst hreg
    exact ⟨_, hexec, eq_standsFor_iff.mpr hun⟩

/-- **A lazy engine stays lazy when materialising fails** only if it does not fail: the sections are
given up before they are read. -/
theorem ensureFullStateLoaded_keeps_iff (faults : D → Option LoomError) (L : Loom hash) :
    (∀ e L', exec (ensureFullStateLoaded faults) L = (.error e, L') →
      L'.lazyStateSections = L.lazyStateSections) ↔ ∃ p, L.current faults = .ok p := by
  rw [exec_ensureFullStateLoaded]
  cases hcur : L.current faults with
  | ok p => exact ⟨fun _ => ⟨p, rfl⟩, fun _ e L' h => by cases h⟩
  | error e =>
    refine ⟨fun h => ?_, fun ⟨p, hp⟩ => by cases hp⟩
    have hnone : none = L.lazyStateSections := h e _ rfl
    rw [current, ← hnone] at hcur
    cases hcur

/-! ## Samples -/

theorem sized_new : (Loom.new : Loom freeHash).persisted.Sized := by
  have hnil : ∀ {α : Type}, FitsU64 ([] : List α) := by simp [FitsU64]
  refine ⟨⟨by decide, by simp [new, persisted, Registry.new, SortedMap.empty]⟩, ?_, hnil,
    ⟨hnil, ?_⟩, ⟨hnil, ?_⟩, hnil, ⟨hnil, ?_⟩, ⟨hnil, ?_⟩, ⟨hnil, ?_⟩, ⟨hnil, ?_⟩, hnil, ⟨hnil, ?_⟩,
    ⟨hnil, ?_⟩⟩
  · intro b hb
    obtain rfl : [0x80] = b := Except.ok.inj hb
    simp [FitsU64]
  all_goals intro e he; cases he

theorem current_lazy {L : Loom freeHash} {p : Persisted FreeDigest} (hs : p.Sized) {registry : Bytes}
    (henc : p.registry.encode = .ok registry) (hsaved : Saved L.heap.store registry p)
    (hlazy : L.lazyStateSections = some (rootEntries freeHash registry p)) :
    ∃ reg, L.current noFaults = .ok { p with registry := reg } ∧ reg.byId = p.registry.byId ∧
      reg.Exact := by
  obtain ⟨reg, hread, hid, hexact⟩ := readSections_of (L.readObject noFaults) hs henc
    hsaved.sections hsaved.work hsaved.index
  refine ⟨reg, ?_, hid, hexact⟩
  rw [current, hlazy]
  exact hread

def withFile : Loom freeHash :=
  { Loom.new with
    work := SortedMap.ofList [(Sample.ns, SortedMap.ofList [("a".toList, Sample.file 1)])] }

def reopen (L : Loom freeHash) : Loom freeHash :=
  { (Loom.new : Loom freeHash) with heap := ⟨L.heap.store, SortedMap.empty⟩ }

def allFaults : FreeDigest → Option LoomError := fun d => some (.notFound ("object " ++ toString d))

theorem sized_withFile : withFile.persisted.Sized := by
  refine { sized_new with work := ⟨by decide, fun e he => ?_⟩ }
  obtain rfl := List.mem_singleton.mp he
  refine ⟨by decide, fun e he => ?_⟩
  obtain rfl := List.mem_singleton.mp he
  decide

theorem eq_new {reg : Registry FreeDigest} (hid : reg.byId = SortedMap.empty) (hexact : reg.Exact) :
    reg = Registry.new :=
  Registry.eq_of_exact (fun _ _ h => by simp [Registry.new] at h) hexact hid

/-- A failed read makes a lazy engine take its empty maps for the state, and save them. -/
theorem failed_load_forgets : ∃ (root : FreeDigest) (L₁ M M' : Loom freeHash) (e : LoomError),
    exec (saveState noFaults) withFile = (.ok root, L₁) ∧
    exec (loadStateLazy noFaults root) (reopen L₁) = (.ok (), M) ∧
    exec (ensureFullStateLoaded allFaults) M = (.error e, M') ∧ M'.lazyStateSections = none ∧
    ∃ root' M₁, exec (saveState noFaults) M' = (.ok root', M₁) ∧ M₁.work = SortedMap.empty := by
  obtain ⟨registry, L₁, henc, hsave, -, -, hsaved⟩ :=
    exec_saveState noFaults freeHash_injective (L := withFile) rfl sized_withFile
  obtain ⟨reg, hlazy, hid, hexact⟩ := loadStateLazy_saved (M := reopen L₁) sized_withFile henc hsaved
  obtain rfl := eq_new hid hexact
  have hfault : exec (ensureFullStateLoaded allFaults) { reopen L₁ with
      registry := Registry.new
      lazyStateSections := some (rootEntries freeHash registry withFile.persisted) } =
      (.error (.notFound ("object " ++
        toString (freeHash (.object (.blob (putRegistry registry)))))), reopen L₁) := by
    rw [exec_ensureFullStateLoaded]
    rfl
  obtain ⟨_, M₁, -, hsave', -, hp, -⟩ := exec_saveState noFaults freeHash_injective
    (L := reopen L₁) rfl sized_new
  exact ⟨_, L₁, _, _, _, hsave, hlazy, hfault, rfl, _, M₁, hsave', congrArg Persisted.work hp⟩

end UldrenLoom.Vcs.Loom
