import UldrenLoom.Fs.Acts

/-!
# File handles and the working tree

An open file has an inode, which its handles share and which is linked to the path of the file until
the path is removed.

* **`Act.linked`**, **`Act.counted`**: every change keeps the links and the counts of the inodes.
-/

namespace UldrenLoom.Fs

open ByteString Fallible Effect Subtree Vcs SortedMap Option Nat

variable {D : Type} [LinearOrder D] {hash : Stored D → D}

/-! ## Links -/

/-- The working trees of the workspaces `S` hold the files of the linked inodes. -/
structure Linked (S : Set WorkspaceId) (L : Loom hash) : Prop where
  fresh : ∀ {id ino}, L.inodes.get id = some ino → id.toNat < L.nextInode.toNat
  held : ∀ {id ino p}, L.inodes.get id = some ino → ino.ns ∈ S → ino.path = some p →
    slot L ino.ns p = some (.file ⟨ino.contentAddr, ino.mode⟩) ∧
      L.pathToInode.get (toLex (ino.ns, p)) = some id
  back : ∀ {ns p id}, ns ∈ S → L.pathToInode.get (toLex (ns, p)) = some id →
    ∃ ino, L.inodes.get id = some ino ∧ ino.ns = ns ∧ ino.path = some p

section Links

variable {S : Set WorkspaceId} {L : Loom hash} {ns : WorkspaceId}

theorem Linked.unique (h : Linked S L) {id id' : UInt64} {ino ino' : Inode D} {p : Path}
    (hino : L.inodes.get id = some ino) (hino' : L.inodes.get id' = some ino') (hns : ino.ns ∈ S)
    (heq : ino.ns = ino'.ns) (hp : ino.path = some p) (hp' : ino'.path = some p) : id = id' := by
  have h1 := (h.held hino hns hp).2
  have h2 := (h.held hino' (heq ▸ hns) hp').2
  rw [← heq, h1] at h2
  exact Option.some.inj h2

theorem Linked.putFileSlot (h : Linked S L) (hns : ns ∈ S) (path : Path) (addr : D) (size : ℕ)
    (mode : UInt32) : Linked S (putFileSlot L ns path addr size mode) := by
  refine ⟨fun {id ino} hget => ?_, fun {id ino p} hget hS hp => ?_, fun {ns' p id} hS hget => ?_⟩
  · rw [get_putFileSlot] at hget
    obtain ⟨_, hino, -⟩ := of_ite_map hget
    exact h.fresh hino
  · rw [get_putFileSlot] at hget
    rw [slot_putFileSlot]
    obtain ⟨ino, hino, ⟨hopen, rfl⟩ | ⟨hopen, rfl⟩⟩ := of_ite_map hget
    · obtain ⟨ino', hino', rfl, hpath⟩ := h.back hns hopen
      cases hino.symm.trans hino'
      cases hpath.symm.trans hp
      exact ⟨if_pos ⟨rfl, rfl⟩, hopen⟩
    · obtain ⟨hslot, hback⟩ := h.held hino hS hp
      refine ⟨?_, hback⟩
      rw [if_neg, hslot]
      rintro ⟨rfl, rfl⟩
      exact hopen hback
  · obtain ⟨ino, hino, hino_ns, hino_p⟩ := h.back hS hget
    rw [get_putFileSlot, hino]
    split_ifs <;> exact ⟨_, rfl, hino_ns, hino_p⟩

theorem Linked.removeFileNorm (h : Linked S L) (hns : ns ∈ S) (path : Path) :
    Linked S (removeFileNorm L ns path) := by
  refine ⟨fun {id ino} hget => ?_, fun {id ino p} hget hS hp => ?_, fun {ns' p id} hS hget => ?_⟩
  · rw [get_removeFileNorm] at hget
    obtain ⟨_, hino, -⟩ := of_ite_map hget
    exact h.fresh hino
  · rw [get_removeFileNorm] at hget
    obtain ⟨ino, hino, ⟨hopen, rfl⟩ | ⟨hopen, rfl⟩⟩ := of_ite_map hget
    · cases hp
    · obtain ⟨hslot, hback⟩ := h.held hino hS hp
      have hne : ¬ (ns = ino.ns ∧ path = p) := by
        rintro ⟨rfl, rfl⟩
        exact hopen hback
      constructor
      · rw [slot_removeFileNorm, if_neg hne, hslot]
      · refine (get_erase ..).trans ?_
        rw [if_neg, ← hback]
        · rfl
        · intro he
          have := toLex.injective he
          exact hne ⟨congrArg Prod.fst this, congrArg Prod.snd this⟩
  · replace hget := (get_erase ..).symm.trans hget
    split_ifs at hget with hkey
    obtain ⟨ino, hino, rfl, hino_p⟩ := h.back hS hget
    refine ⟨ino, ?_, rfl, hino_p⟩
    rw [get_removeFileNorm, if_neg, hino]
    intro hopen
    obtain ⟨ino', hino', hino'_ns, hino'_p⟩ := h.back hns hopen
    cases hino.symm.trans hino'
    obtain rfl := Option.some.inj (hino_p.symm.trans hino'_p)
    exact hkey (by rw [hino'_ns])

theorem Linked.applied (h : Linked S L) {id : UInt64} {ino : Inode D}
    (hino : L.inodes.get id = some ino) (addr : D) (size : ℕ) :
    Linked S (applied L id ino addr size) := by
  have hget : ∀ i, (Fs.applied L id ino addr size).inodes.get i = if id = i then
      (L.inodes.get i).map fun ino => { ino with contentAddr := addr, size := UInt64.ofNat size }
      else L.inodes.get i := fun i => get_update ..
  have hslot : ∀ ns' q, slot (Fs.applied L id ino addr size) ns' q =
      if ino.ns = ns' ∧ ino.path = some q then some (.file ⟨addr, ino.mode⟩) else slot L ns' q := by
    intro ns' q
    unfold Fs.applied
    cases hp : ino.path with
    | none => simp [slot, Loom.workOf]
    | some p =>
      simp only [Option.some.injEq]
      change slot (setSlot L ino.ns p _) ns' q = _
      exact slot_setSlot _
  refine ⟨fun {i ino'} hi => ?_, fun {i ino' p} hi hS hp => ?_, fun {ns' p i} hS hb => ?_⟩
  · rw [hget] at hi
    obtain ⟨_, hino', -⟩ := of_ite_map hi
    exact h.fresh hino'
  · rw [hget] at hi
    rw [hslot]
    split_ifs at hi with hid
    · subst hid
      rw [hino] at hi
      cases hi
      exact ⟨if_pos ⟨rfl, hp⟩, (h.held hino hS hp).2⟩
    · obtain ⟨hheld, hback⟩ := h.held hi hS hp
      refine ⟨?_, hback⟩
      rw [if_neg, hheld]
      rintro ⟨hns, hpath⟩
      exact hid (h.unique hino hi (hns ▸ hS) hns hpath hp)
  · obtain ⟨ino', hino', rfl, hp'⟩ := h.back hS hb
    rw [hget, hino']
    split_ifs <;> exact ⟨_, rfl, rfl, hp'⟩

theorem toNat_add_one {a : UInt64} (h : a.toNat + 1 < 2 ^ 64) : (a + 1).toNat = a.toNat + 1 := by
  exact mod_eq_of_lt h

theorem Linked.withInode (h : Linked S L) {path : Path} {f : StagedFile D}
    (hnone : L.pathToInode.get (toLex (ns, path)) = none) (hslot : slot L ns path = some (.file f))
    (size : ℕ) (hroom : L.nextInode.toNat + 1 < 2 ^ 64) :
    Linked S (withInode L ns path f.contentAddr size f.mode) := by
  have hnew : L.inodes.get L.nextInode = none := by
    by_contra hn
    obtain ⟨ino, hino⟩ := ne_none_iff_exists'.mp hn
    exact lt_irrefl _ (h.fresh hino)
  refine ⟨fun {id ino} hget => ?_, fun {id ino p} hget hS hp => ?_, fun {ns' p id} hS hget => ?_⟩
  · replace hget := (get_insert ..).symm.trans hget
    change id.toNat < (L.nextInode + 1).toNat
    rw [toNat_add_one hroom]
    split_ifs at hget with hid
    · rw [hid]
      exact lt_succ_self _
    · exact lt_succ_of_lt (h.fresh hget)
  · replace hget := (get_insert ..).symm.trans hget
    split_ifs at hget with hid
    · cases hget
      cases hp
      exact ⟨hslot, (get_insert ..).trans (by rw [if_pos rfl, hid])⟩
    · obtain ⟨hheld, hback⟩ := h.held hget hS hp
      refine ⟨hheld, (get_insert ..).trans ?_⟩
      rw [if_neg, hback]
      intro hkey
      rw [← hkey, hnone] at hback
      cases hback
  · replace hget := (get_insert ..).symm.trans hget
    split_ifs at hget with hkey
    · obtain ⟨rfl, rfl⟩ := Prod.mk.inj (toLex.injective hkey)
      cases hget
      exact ⟨_, (get_insert ..).trans (if_pos rfl), rfl, rfl⟩
    · obtain ⟨ino, hino, hino_ns, hino_p⟩ := h.back hS hget
      refine ⟨ino, (get_insert ..).trans ?_, hino_ns, hino_p⟩
      rw [if_neg, hino]
      rintro rfl
      rw [hnew] at hino
      cases hino

theorem Linked.updateInode (h : Linked S L) (id : UInt64) {f : Inode D → Inode D}
    (hf : ∀ ino, f ino = { ino with openCount := (f ino).openCount }) :
    Linked S (updateInode L id f) := by
  have hget : ∀ i ino', (Fs.updateInode L id f).inodes.get i = some ino' →
      ∃ ino, L.inodes.get i = some ino ∧ ino' = { ino with openCount := ino'.openCount } := by
    intro i ino' hi
    obtain ⟨ino, hino, ⟨-, rfl⟩ | ⟨-, rfl⟩⟩ := of_ite_map ((get_update ..).symm.trans hi)
    · exact ⟨ino, hino, hf ino⟩
    · exact ⟨_, hino, rfl⟩
  refine ⟨fun {i ino'} hi => ?_, fun {i ino' p} hi hS hp => ?_, fun {ns' p i} hS hb => ?_⟩
  · obtain ⟨ino, hino, -⟩ := hget i ino' hi
    exact h.fresh hino
  · obtain ⟨ino, hino, heq⟩ := hget i ino' hi
    rw [heq] at hS hp
    have hheld := h.held hino hS hp
    rw [heq]
    exact hheld
  · obtain ⟨ino, hino, hns, hp⟩ := h.back hS hb
    refine ⟨if id = i then f ino else ino, (get_update ..).trans ?_, ?_⟩
    · rw [hino]
      split_ifs <;> rfl
    · split_ifs
      · rw [hf ino]
        exact ⟨hns, hp⟩
      · exact ⟨hns, hp⟩

theorem Linked.releaseInode (h : Linked S L) (id : UInt64) : Linked S (releaseInode L id) := by
  cases hino : L.inodes.get id with
  | none =>
    rw [Fs.releaseInode, hino]
    exact h
  | some ino =>
    rw [Fs.releaseInode, hino]
    dsimp only
    split_ifs with hlast
    · refine ⟨fun {i ino'} hi => ?_, fun {i ino' p} hi hS hp => ?_, fun {ns' p i} hS hb => ?_⟩
      · replace hi := (get_erase ..).symm.trans hi
        split_ifs at hi
        exact h.fresh hi
      · replace hi := (get_erase ..).symm.trans hi
        split_ifs at hi with hid
        obtain ⟨hheld, hback⟩ := h.held hi hS hp
        refine ⟨hheld, ?_⟩
        unfold dropInode
        cases hpath : ino.path with
        | none => exact hback
        | some q =>
          rw [get_erase, if_neg, hback]
          intro hkey
          obtain ⟨hns, rfl⟩ := Prod.mk.inj (toLex.injective hkey)
          exact hid (h.unique hino hi (hns ▸ hS) hns hpath hp)
      · have hback : L.pathToInode.get (toLex (ns', p)) = some i ∧
            ¬ (ino.ns = ns' ∧ ino.path = some p) := by
          unfold dropInode at hb
          cases hpath : ino.path with
          | none =>
            rw [hpath] at hb
            exact ⟨hb, by simp⟩
          | some q =>
            rw [hpath] at hb
            rw [get_erase] at hb
            split_ifs at hb with hkey
            refine ⟨hb, ?_⟩
            rintro ⟨rfl, he⟩
            exact hkey (by rw [Option.some.inj he])
        obtain ⟨ino', hino', rfl, hp'⟩ := h.back hS hback.1
        refine ⟨ino', (get_erase ..).trans ?_, rfl, hp'⟩
        rw [if_neg, hino']
        rintro rfl
        rw [hino] at hino'
        cases hino'
        exact hback.2 ⟨rfl, hp'⟩
    · have hupd : L.inodes.insert id { ino with openCount := saturatingPred ino.openCount } =
          L.inodes.update id fun ino =>
            { ino with openCount := saturatingPred ino.openCount } := by
        rw [SortedMap.update, hino]
      rw [hupd]
      exact h.updateInode id fun _ => rfl

variable [ToString D] {G : Prop} {env : Env hash}

/-- **Every change keeps the links.** -/
theorem Act.linked {L' : Loom hash} (ha : Act G env S L L') (h : Linked S L) : Linked S L' := by
  cases ha with
  | grow | dirs | seek => exact ⟨h.fresh, h.held, h.back⟩
  | put hns path h' addr size mode _ =>
    exact Linked.putFileSlot (L := { L with heap := h' }) ⟨h.fresh, h.held, h.back⟩ hns _ _ _ _
  | remove hns path => exact h.removeFileNorm hns path
  | apply hino h' addr size _ =>
    exact Linked.applied (L := { L with heap := h' }) ⟨h.fresh, h.held, h.back⟩ hino _ _
  | @share id ino hino _ _ mode =>
    have hs := h.updateInode id (f := fun ino => { ino with openCount := ino.openCount + 1 })
      fun _ => rfl
    exact ⟨hs.fresh, hs.held, hs.back⟩
  | link _ hnone hslot size _ hinode _ mode =>
    have hs := h.withInode hnone hslot size hinode
    exact ⟨hs.fresh, hs.held, hs.back⟩
  | @close hd oh _ =>
    exact Linked.releaseInode (L := { L with handles := L.handles.erase hd })
      ⟨h.fresh, h.held, h.back⟩ oh.inode

end Links

/-! ## Counts -/

def handleCount (L : Loom hash) (id : UInt64) : ℕ := L.handles.count fun oh => oh.inode = id

/-- Every inode counts its handles, and every handle has its inode. -/
structure Counted (L : Loom hash) : Prop where
  freshInode : ∀ {id ino}, L.inodes.get id = some ino → id.toNat < L.nextInode.toNat
  freshHandle : ∀ {h oh}, L.handles.get h = some oh → h.toNat < L.nextHandle.toNat
  inode : ∀ {h oh}, L.handles.get h = some oh → L.inodes.get oh.inode ≠ none
  count : ∀ {id ino}, L.inodes.get id = some ino → ino.openCount.toNat = handleCount L id

section Counts

variable {L : Loom hash}

theorem Counted.of_inodes (h : Counted L) {L' : Loom hash} (hnext : L'.nextInode = L.nextInode)
    (hnext' : L'.nextHandle = L.nextHandle) (hhandles : L'.handles = L.handles)
    (hino : ∀ i, (L'.inodes.get i).map Inode.openCount = (L.inodes.get i).map Inode.openCount) :
    Counted L' := by
  have hget : ∀ {i ino'}, L'.inodes.get i = some ino' →
      ∃ ino, L.inodes.get i = some ino ∧ ino.openCount = ino'.openCount := by
    intro i ino' hi
    have := hino i
    rw [hi, map_some] at this
    exact map_eq_some_iff.mp this.symm
  refine ⟨fun hi => ?_, fun hh => ?_, fun {hd oh} hh => ?_, fun {i ino'} hi => ?_⟩
  · obtain ⟨ino, hi, -⟩ := hget hi
    rw [hnext]
    exact h.freshInode hi
  · rw [hnext']
    exact h.freshHandle (hhandles ▸ hh)
  · intro hn
    have := hino oh.inode
    rw [hn, map_none] at this
    exact h.inode (hhandles ▸ hh) (map_eq_none_iff.mp this.symm)
  · obtain ⟨ino, hi, hcount⟩ := hget hi
    rw [← hcount, handleCount, hhandles]
    exact h.count hi

theorem Counted.handle_none (h : Counted L) : L.handles.get L.nextHandle = none := by
  by_contra hn
  obtain ⟨oh, hoh⟩ := ne_none_iff_exists'.mp hn
  exact lt_irrefl _ (h.freshHandle hoh)

/-- No handle has an inode that is not there yet. -/
theorem Counted.count_next (h : Counted L) : handleCount L L.nextInode = 0 := by
  refine List.countP_eq_zero.mpr fun e he hid => ?_
  obtain ⟨ino, hino⟩ := ne_none_iff_exists'.mp (h.inode (get_eq_some.mpr he))
  rw [of_decide_eq_true hid] at hino
  exact lt_irrefl _ (h.freshInode hino)

theorem Counted.withHandle (h : Counted L) {L' : Loom hash} {id : UInt64} {ino : Inode D}
    (mode : OpenMode) (hroom : L.nextHandle.toNat + 1 < 2 ^ 64)
    (hnext : L'.nextHandle = L.nextHandle) (hhandles : L'.handles = L.handles)
    (hfresh : ∀ {i ino'}, L'.inodes.get i = some ino' → i.toNat < L'.nextInode.toNat)
    (hino : L'.inodes.get id = some ino) (hcount : ino.openCount.toNat = handleCount L id + 1)
    (hother : ∀ i, i ≠ id → L'.inodes.get i = L.inodes.get i) :
    Counted (withHandle L' ⟨id, 0, mode⟩) := by
  have hcounts : ∀ i, handleCount (Fs.withHandle L' ⟨id, 0, mode⟩) i =
      handleCount L i + if id = i then 1 else 0 := by
    intro i
    rw [handleCount, handleCount, Fs.withHandle, hnext, hhandles]
    rw [count_insert, erase_of_get_none h.handle_none]
    simp
  refine ⟨hfresh, fun {hd oh} hh => ?_, fun {hd oh} hh => ?_, fun {i ino'} hi => ?_⟩
  · replace hh := (get_insert ..).symm.trans hh
    change hd.toNat < (L'.nextHandle + 1).toNat
    rw [hnext, toNat_add_one hroom]
    rw [hnext, hhandles] at hh
    split_ifs at hh with hid
    · rw [hid]
      exact lt_succ_self _
    · exact lt_succ_of_lt (h.freshHandle hh)
  · replace hh := (get_insert ..).symm.trans hh
    rw [hhandles] at hh
    change L'.inodes.get oh.inode ≠ none
    split_ifs at hh with hid
    · cases hh
      simp [hino]
    · by_cases hne : oh.inode = id
      · rw [hne, hino]
        simp
      · rw [hother _ hne]
        exact h.inode hh
  · rw [hcounts]
    change L'.inodes.get i = some ino' at hi
    by_cases hid : i = id
    · subst hid
      rw [hino] at hi
      cases hi
      rw [if_pos rfl, hcount]
    · rw [hother i hid] at hi
      rw [if_neg (Ne.symm hid), add_zero]
      exact h.count hi

theorem Counted.close (h : Counted L) {hd : UInt64} {oh : OpenHandle}
    (hoh : L.handles.get hd = some oh) :
    Counted (releaseInode { L with handles := L.handles.erase hd } oh.inode) := by
  obtain ⟨ino, hino⟩ := ne_none_iff_exists'.mp (h.inode hoh)
  have hcounts : ∀ i, handleCount L i =
      (L.handles.erase hd).count (fun oh => oh.inode = i) + if oh.inode = i then 1 else 0 := by
    intro i
    rw [handleCount, count_of_get _ hoh]
    simp
  have hone : 1 ≤ ino.openCount.toNat := by
    rw [h.count hino, hcounts, if_pos rfl]
    omega
  have hsub : (saturatingPred ino.openCount).toNat = ino.openCount.toNat - 1 := by
    have hne : ino.openCount ≠ 0 := by
      intro h0
      rw [h0] at hone
      exact absurd hone (by decide)
    have hle : 1 ≤ ino.openCount := UInt32.le_iff_toNat_le.mpr (by simpa using hone)
    rw [saturatingPred, if_neg hne, UInt32.toNat_sub_of_le _ _ hle]
    rfl
  obtain ⟨-, -, hhandles, hnext, hnext'⟩ :=
    releaseInode_frame { L with handles := L.handles.erase hd } oh.inode
  have hget : ∀ i, (releaseInode { L with handles := L.handles.erase hd } oh.inode).inodes.get i =
      if oh.inode = i then
        if saturatingPred ino.openCount = 0 then none
        else some { ino with openCount := saturatingPred ino.openCount }
      else L.inodes.get i :=
    fun i => get_releaseInode (L := { L with handles := L.handles.erase hd }) hino
  refine ⟨fun {i ino'} hi => ?_, fun {g oh'} hg => ?_, fun {g oh'} hg => ?_, fun {i ino'} hi => ?_⟩
  · rw [hnext]
    rw [hget] at hi
    split_ifs at hi with hid
    · exact hid ▸ h.freshInode hino
    · exact h.freshInode hi
  · rw [hnext']
    rw [hhandles] at hg
    replace hg := (get_erase ..).symm.trans hg
    split_ifs at hg
    exact h.freshHandle hg
  · rw [hhandles] at hg
    rw [hget]
    split_ifs with hid hlast
    · -- another handle on the inode keeps its count above zero
      have hmem := count_of_get (fun oh => oh.inode = oh'.inode) hg
      have hcount := h.count hino
      have hzero : (saturatingPred ino.openCount).toNat = 0 := by rw [hlast]; rfl
      rw [hcounts, if_pos rfl] at hcount
      simp only [decide_true, if_true] at hmem
      rw [← hid] at hmem
      omega
    · simp
    · replace hg := (get_erase ..).symm.trans hg
      split_ifs at hg
      exact h.inode hg
  · rw [handleCount, hhandles]
    rw [hget] at hi
    split_ifs at hi with hid hlast
    · subst hid
      cases hi
      have hcount := h.count hino
      rw [hcounts, if_pos rfl] at hcount
      rw [hsub, hcount]
      rfl
    · have hcount := h.count hi
      rw [hcounts, if_neg hid] at hcount
      exact hcount

variable [ToString D] {G : Prop} {env : Env hash} {S : Set WorkspaceId}

omit [LinearOrder D] [ToString D] in
theorem openCount_ite_map {c : Prop} [Decidable c] {o : Option (Inode D)} {f : Inode D → Inode D}
    (hf : ∀ ino, (f ino).openCount = ino.openCount) :
    (if c then o.map f else o).map Inode.openCount = o.map Inode.openCount := by
  split_ifs
  · rw [map_map]
    exact congrArg (o.map ·) (funext hf)
  · rfl

/-- **Every change keeps the counts.** -/
theorem Act.counted {L' : Loom hash} (ha : Act G env S L L') (h : Counted L) : Counted L' := by
  cases ha with
  | grow | dirs => exact h.of_inodes rfl rfl rfl fun _ => rfl
  | put hns path h' addr size mode _ =>
    refine h.of_inodes rfl rfl rfl fun i => ?_
    rw [get_putFileSlot]
    exact openCount_ite_map fun _ => rfl
  | remove hns path =>
    refine h.of_inodes rfl rfl rfl fun i => ?_
    rw [get_removeFileNorm]
    exact openCount_ite_map fun _ => rfl
  | @apply id ino hino h' addr size _ =>
    refine h.of_inodes rfl rfl rfl fun i => ?_
    change ((L.inodes.update id _).get i).map _ = _
    rw [get_update]
    exact openCount_ite_map fun _ => rfl
  | @share id ino hino hcount hroom mode =>
    have hget : ∀ i, (updateInode L id fun ino =>
        { ino with openCount := ino.openCount + 1 }).inodes.get i = if id = i then
          (L.inodes.get i).map fun ino => { ino with openCount := ino.openCount + 1 }
        else L.inodes.get i := fun i => get_update ..
    refine h.withHandle mode hroom rfl rfl (fun {i ino'} hi => ?_)
      (show _ = some { ino with openCount := ino.openCount + 1 } from ?_) ?_ fun i hi => ?_
    · rw [hget] at hi
      obtain ⟨_, hino', -⟩ := of_ite_map hi
      exact h.freshInode hino'
    · rw [hget, if_pos rfl, hino]
      rfl
    · rw [← h.count hino]
      exact mod_eq_of_lt hcount
    · rw [hget, if_neg hi.symm]
  | @link ns hns path f hnone hslot size _ hinode hroom mode =>
    have hget : ∀ i, (withInode L ns path f.contentAddr size f.mode).inodes.get i =
        if L.nextInode = i then some ⟨ns, some path, f.contentAddr, UInt64.ofNat size, f.mode, 1⟩
        else L.inodes.get i := fun i => get_insert ..
    refine h.withHandle mode hroom rfl rfl (fun {i ino'} hi => ?_) ((hget _).trans (if_pos rfl)) ?_
      fun i hi => ?_
    · rw [hget] at hi
      change i.toNat < (L.nextInode + 1).toNat
      rw [toNat_add_one hinode]
      split_ifs at hi with hid
      · rw [hid]
        exact lt_succ_self _
      · exact lt_succ_of_lt (h.freshInode hi)
    · rw [h.count_next]
      rfl
    · rw [hget, if_neg hi.symm]
  | seek g f =>
    have hcount : ∀ i, handleCount (setOffset L g f) i = handleCount L i := by
      intro i
      change (L.handles.update g _).count _ = _
      rw [SortedMap.update]
      cases hoh : L.handles.get g with
      | none => rfl
      | some oh =>
        rw [count_insert, handleCount, count_of_get _ hoh]
    have hget : ∀ g' oh', (setOffset L g f).handles.get g' = some oh' →
        ∃ oh, L.handles.get g' = some oh ∧ oh.inode = oh'.inode := by
      intro g' oh' hg
      obtain ⟨oh, hoh, ⟨-, rfl⟩ | ⟨-, rfl⟩⟩ := of_ite_map ((get_update ..).symm.trans hg) <;>
        exact ⟨_, hoh, rfl⟩
    refine ⟨h.freshInode, fun {g' oh'} hg => ?_, fun {g' oh'} hg => ?_, fun {i ino} hi => ?_⟩
    · obtain ⟨oh, hoh, -⟩ := hget g' oh' hg
      exact h.freshHandle hoh
    · obtain ⟨oh, hoh, heq⟩ := hget g' oh' hg
      exact heq ▸ h.inode hoh
    · rw [hcount]
      exact h.count hi
  | close hoh => exact h.close hoh

end Counts

end UldrenLoom.Fs
