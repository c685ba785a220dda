import UldrenLoom.Fs.Model

/-!
# What an operation can do

Every operation on files, directories and handles is a sequence of a few kinds of changes of the
state. Checkouts are not among them.

* **`steps_run`**: every operation is a chain of changes.
-/

namespace UldrenLoom.Fs

open ByteString Fallible Effect Subtree Vcs SortedMap

variable {D : Type} [LinearOrder D] {hash : Stored D → D}

/-! ## Looking at a changed state -/

section Look

variable {L : Loom hash} {ns ns' : WorkspaceId} {p q : Path}

/-- What an update of some values has come from. -/
theorem of_ite_map {α : Type} {c : Prop} [Decidable c] {o : Option α} {f : α → α} {a : α}
    (h : (if c then o.map f else o) = some a) : ∃ b, o = some b ∧ (c ∧ a = f b ∨ ¬ c ∧ a = b) := by
  split_ifs at h with hc
  · obtain ⟨b, hb, rfl⟩ := Option.map_eq_some_iff.mp h
    exact ⟨b, hb, .inl ⟨hc, rfl⟩⟩
  · exact ⟨a, h, .inr ⟨hc, rfl⟩⟩

theorem workOf_setSlot (e : StagedEntry D) : (setSlot L ns p e).workOf ns' =
    if ns = ns' then (L.workOf ns).insert p e else L.workOf ns' := by
  simp only [setSlot, Loom.workOf, get_insert]
  split_ifs <;> rfl

theorem slot_setSlot (e : StagedEntry D) : slot (setSlot L ns p e) ns' q =
    if ns = ns' ∧ p = q then some e else slot L ns' q := by
  rw [slot, workOf_setSlot]
  by_cases hn : ns = ns'
  · subst hn
    simp [slot]
  · rw [if_neg hn, if_neg fun h => hn h.1]
    rfl

theorem slot_eraseSlot : slot (eraseSlot L ns p) ns' q =
    if ns = ns' ∧ p = q then none else slot L ns' q := by
  simp only [slot, eraseSlot, Loom.workOf, get_update]
  by_cases hn : ns = ns'
  · subst hn
    cases h : L.work.get ns with
    | none => simp
    | some w => simp
  · rw [if_neg hn, if_neg fun h => hn h.1]

theorem get_updateOpen (f : Inode D → Inode D) (i : UInt64) : (updateOpen L ns p f).inodes.get i =
    if L.pathToInode.get (toLex (ns, p)) = some i then (L.inodes.get i).map f
    else L.inodes.get i := by
  unfold updateOpen
  cases L.pathToInode.get (toLex (ns, p)) with
  | none => simp
  | some id => simp

theorem get_putFileSlot (addr : D) (size : ℕ) (mode : UInt32) (i : UInt64) :
    (putFileSlot L ns p addr size mode).inodes.get i =
      if L.pathToInode.get (toLex (ns, p)) = some i then
        (L.inodes.get i).map fun ino =>
          { ino with contentAddr := addr, size := UInt64.ofNat size, mode := mode }
      else L.inodes.get i := get_updateOpen _ i

theorem slot_putFileSlot (addr : D) (size : ℕ) (mode : UInt32) :
    slot (putFileSlot L ns p addr size mode) ns' q =
      if ns = ns' ∧ p = q then some (.file ⟨addr, mode⟩) else slot L ns' q := slot_setSlot _

theorem get_removeFileNorm (i : UInt64) : (removeFileNorm L ns p).inodes.get i =
    if L.pathToInode.get (toLex (ns, p)) = some i then
      (L.inodes.get i).map fun ino => { ino with path := none }
    else L.inodes.get i := get_updateOpen _ i

theorem slot_removeFileNorm : slot (removeFileNorm L ns p) ns' q =
    if ns = ns' ∧ p = q then none else slot L ns' q := slot_eraseSlot

end Look

variable [ToString D]

/-! ## Whole content -/

/-- What is assumed of the digests and the chunks. -/
structure Digests (env : Env hash) : Prop where
  hash : Function.Injective hash
  address : Function.Injective env.contentAddress
  chunk : env.chunk = chunk

/-- The content in the heap is whole, and the inodes have content of their size. -/
structure Intact (env : Env hash) (L : Loom hash) : Prop where
  heap : L.heap.Intact env.toEnv
  inode : ∀ {id ino}, L.inodes.get id = some ino →
    ∃ bytes, Content L.heap ino.contentAddr bytes ∧ ino.size.toNat = bytes.length

variable {env : Env hash} {L : Loom hash}

/-- The content of a heap is whole, and it has all content of another heap. -/
structure Extends (env : Env hash) (h h' : Heap hash) : Prop where
  intact : h'.Intact env.toEnv
  content : ∀ {addr bytes}, Content h addr bytes → Content h' addr bytes

/-- And it has content of a size at an address. -/
structure Fills (env : Env hash) (h h' : Heap hash) (addr : D) (size : ℕ) : Prop
    extends Extends env h h' where
  filled : ∃ bytes, Content h' addr bytes ∧ size = bytes.length

variable {h : Heap hash}

theorem extends_of_grown {h' : Heap hash} (hi : h.Intact env.toEnv) (hg : h.Grown h') :
    Extends env h h' := ⟨hi.grown hg, fun hc => hc.mono hg⟩

variable {bytes : Bytes}

theorem fills_stored (hd : Digests env) (hi : h.Intact env.toEnv) (hlen : bytes.length < 2 ^ 64) :
    Fills env h (h.stored env.toEnv bytes) (env.contentAddress bytes) bytes.length := by
  refine ⟨⟨hi.stored hd.hash hd.chunk hd.address hlen, fun {addr old} hc => ?_⟩, bytes,
    content_stored hd.hash hd.chunk h hlen, rfl⟩
  obtain rfl := hi.address hc
  exact hc.stored hd.hash hd.chunk hd.address hlen

variable {n : ℕ}

theorem content_of_size (hi : h.Intact env.toEnv) {addr : D} (hn : contentSize h addr = .ok n) :
    ∃ bytes, Content h addr bytes ∧ n = bytes.length := by
  cases hget : h.content.get addr with
  | none =>
    rw [contentSize, contentObject, hget] at hn
    cases hn
  | some obj =>
    obtain ⟨bytes, hc, -⟩ := hi addr obj hget
    rw [contentSize_content hc] at hn
    exact ⟨bytes, hc, (Except.ok.inj hn).symm⟩

/-! ## Changes -/

/-- The state after an inode, and the path it is linked to, got new content. -/
def applied (L : Loom hash) (id : UInt64) (ino : Inode D) (addr : D) (size : ℕ) : Loom hash :=
  { L with
    inodes := L.inodes.update id fun ino =>
      { ino with contentAddr := addr, size := UInt64.ofNat size }
    work :=
      match ino.path with
      | some p => L.work.insert ino.ns ((L.workOf ino.ns).insert p (.file ⟨addr, ino.mode⟩))
      | none => L.work }

def withHandle (L : Loom hash) (oh : OpenHandle) : Loom hash :=
  { L with nextHandle := L.nextHandle + 1, handles := L.handles.insert L.nextHandle oh }

def withInode (L : Loom hash) (ns : WorkspaceId) (path : Path) (addr : D) (size : ℕ)
    (mode : UInt32) : Loom hash :=
  { L with
    nextInode := L.nextInode + 1
    inodes := L.inodes.insert L.nextInode ⟨ns, some path, addr, UInt64.ofNat size, mode, 1⟩
    pathToInode := L.pathToInode.insert (toLex (ns, path)) L.nextInode }

/-- One change of the state, in a workspace of `S`. With `G`, content stays whole. -/
inductive Act (G : Prop) (env : Env hash) (S : Set WorkspaceId) (L : Loom hash) : Loom hash → Prop
  | grow (h : Heap hash) (hext : G → Extends env L.heap h) : Act G env S L { L with heap := h }
  | put {ns : WorkspaceId} (hns : ns ∈ S) (path : Path) (h : Heap hash) (addr : D) (size : ℕ)
      (mode : UInt32) (hfill : G → Fills env L.heap h addr size) :
      Act G env S L (putFileSlot { L with heap := h } ns path addr size mode)
  | remove {ns : WorkspaceId} (hns : ns ∈ S) (path : Path) : Act G env S L (removeFileNorm L ns path)
  | dirs (dirs : SortedMap WorkspaceId DirSet) : Act G env S L { L with dirs := dirs }
  | apply {id : UInt64} {ino : Inode D} (hino : L.inodes.get id = some ino) (h : Heap hash)
      (addr : D) (size : ℕ) (hfill : G → Fills env L.heap h addr size) :
      Act G env S L (applied { L with heap := h } id ino addr size)
  | share {id : UInt64} {ino : Inode D} (hino : L.inodes.get id = some ino)
      (hcount : ino.openCount.toNat + 1 < 2 ^ 32) (hroom : L.nextHandle.toNat + 1 < 2 ^ 64)
      (mode : OpenMode) : Act G env S L
        (withHandle (updateInode L id fun ino => { ino with openCount := ino.openCount + 1 })
          ⟨id, 0, mode⟩)
  | link {ns : WorkspaceId} (hns : ns ∈ S) {path : Path} {f : StagedFile D}
      (hnone : L.pathToInode.get (toLex (ns, path)) = none) (hslot : slot L ns path = some (.file f))
      (size : ℕ) (hsize : G → contentSize L.heap f.contentAddr = .ok size)
      (hinode : L.nextInode.toNat + 1 < 2 ^ 64) (hroom : L.nextHandle.toNat + 1 < 2 ^ 64)
      (mode : OpenMode) : Act G env S L
        (withHandle (withInode L ns path f.contentAddr size f.mode) ⟨L.nextInode, 0, mode⟩)
  | seek (h : UInt64) (f : UInt64 → UInt64) : Act G env S L (setOffset L h f)
  | close {h : UInt64} {oh : OpenHandle} (hoh : L.handles.get h = some oh) :
      Act G env S L (releaseInode { L with handles := L.handles.erase h } oh.inode)

variable {G : Prop} {S : Set WorkspaceId} {ns : WorkspaceId}

section Release

omit [ToString D]

theorem releaseInode_frame (L : Loom hash) (id : UInt64) : (releaseInode L id).heap = L.heap ∧
    (releaseInode L id).work = L.work ∧ (releaseInode L id).handles = L.handles ∧
      (releaseInode L id).nextInode = L.nextInode ∧ (releaseInode L id).nextHandle = L.nextHandle := by
  unfold releaseInode
  split
  · dsimp only
    split_ifs <;> exact ⟨rfl, rfl, rfl, rfl, rfl⟩
  · exact ⟨rfl, rfl, rfl, rfl, rfl⟩

theorem get_releaseInode {id i : UInt64} {ino : Inode D} (hino : L.inodes.get id = some ino) :
    (releaseInode L id).inodes.get i = if id = i then
        if saturatingPred ino.openCount = 0 then none
        else some { ino with openCount := saturatingPred ino.openCount }
      else L.inodes.get i := by
  unfold releaseInode
  rw [hino]
  dsimp only
  by_cases hlast : saturatingPred ino.openCount = 0
  · rw [if_pos hlast, if_pos hlast]
    exact get_erase ..
  · rw [if_neg hlast, if_neg hlast]
    exact get_insert ..

theorem get_of_releaseInode {id i : UInt64} {ino' : Inode D}
    (h : (releaseInode L id).inodes.get i = some ino') :
    ∃ ino, L.inodes.get i = some ino ∧ ino'.contentAddr = ino.contentAddr ∧
      ino'.size = ino.size := by
  cases hino : L.inodes.get id with
  | none =>
    rw [releaseInode, hino] at h
    exact ⟨ino', h, rfl, rfl⟩
  | some ino =>
    rw [get_releaseInode hino] at h
    split_ifs at h with hid
    · subst hid
      cases h
      exact ⟨ino, hino, rfl, rfl⟩
    · exact ⟨ino', h, rfl, rfl⟩

end Release

/-! ## Content stays whole -/

variable {L' : Loom hash}

theorem Intact.of_update (hi : Intact env L) (hext : Extends env L.heap L'.heap)
    (hino : ∀ {id ino'}, L'.inodes.get id = some ino' →
      (∃ ino, L.inodes.get id = some ino ∧ ino'.contentAddr = ino.contentAddr ∧
        ino'.size = ino.size) ∨
      ∃ bytes, Content L'.heap ino'.contentAddr bytes ∧ ino'.size.toNat = bytes.length) :
    Intact env L' := by
  refine ⟨hext.intact, fun {id ino'} hget => ?_⟩
  rcases hino hget with ⟨ino, hold, haddr, hsize⟩ | hnew
  · obtain ⟨bytes, hc, hlen⟩ := hi.inode hold
    exact ⟨bytes, haddr ▸ hext.content hc, hsize ▸ hlen⟩
  · exact hnew

theorem Extends.refl (hi : Intact env L) : Extends env L.heap L.heap := ⟨hi.heap, id⟩

theorem Act.intact (h : Act G env S L L') (g : G) (hi : Intact env L) : Intact env L' := by
  cases h with
  | grow h hext => exact hi.of_update (hext g) fun hget => .inl ⟨_, hget, rfl, rfl⟩
  | put hns path h addr size mode hfill =>
    refine hi.of_update (hfill g).toExtends fun {id ino'} hget => ?_
    rw [get_putFileSlot] at hget
    obtain ⟨ino, hino, ⟨-, rfl⟩ | ⟨-, rfl⟩⟩ := of_ite_map hget
    · obtain ⟨bytes, hc, rfl⟩ := (hfill g).filled
      exact .inr ⟨bytes, hc, UInt64.toNat_ofNat_of_lt' hc.1⟩
    · exact .inl ⟨_, hino, rfl, rfl⟩
  | remove hns path =>
    refine hi.of_update (Extends.refl hi) fun {id ino'} hget => .inl ?_
    rw [get_removeFileNorm] at hget
    obtain ⟨ino, hino, ⟨-, rfl⟩ | ⟨-, rfl⟩⟩ := of_ite_map hget <;> exact ⟨_, hino, rfl, rfl⟩
  | dirs dirs => exact ⟨hi.heap, hi.inode⟩
  | apply hino h addr size hfill =>
    refine hi.of_update (hfill g).toExtends fun {i ino'} hget => ?_
    obtain ⟨ino, hino, ⟨-, rfl⟩ | ⟨-, rfl⟩⟩ := of_ite_map ((get_update ..).symm.trans hget)
    · obtain ⟨bytes, hc, rfl⟩ := (hfill g).filled
      exact .inr ⟨bytes, hc, UInt64.toNat_ofNat_of_lt' hc.1⟩
    · exact .inl ⟨_, hino, rfl, rfl⟩
  | share hino hcount hroom mode =>
    refine hi.of_update (Extends.refl hi) fun {i ino'} hget => .inl ?_
    obtain ⟨ino, hino, ⟨-, rfl⟩ | ⟨-, rfl⟩⟩ := of_ite_map ((get_update ..).symm.trans hget) <;>
      exact ⟨_, hino, rfl, rfl⟩
  | link hns hnone hslot size hsize hinode hroom mode =>
    refine hi.of_update (Extends.refl hi) fun {i ino'} hget => ?_
    change (L.inodes.insert _ _).get i = _ at hget
    rw [get_insert] at hget
    split_ifs at hget
    · cases hget
      obtain ⟨bytes, hc, rfl⟩ := content_of_size hi.heap (hsize g)
      exact .inr ⟨bytes, hc, UInt64.toNat_ofNat_of_lt' hc.1⟩
    · exact .inl ⟨_, hget, rfl, rfl⟩
  | seek h f => exact ⟨hi.heap, hi.inode⟩
  | @close h oh hoh =>
    have hheap := (releaseInode_frame { L with handles := L.handles.erase h } oh.inode).1
    refine hi.of_update (by rw [hheap]; exact Extends.refl hi) fun {i ino'} hget => .inl ?_
    exact get_of_releaseInode (L := { L with handles := L.handles.erase h }) hget

/-! ## Chains of changes -/

/-- A chain of changes, if content is whole at its start; it is whole at its end. -/
def Steps (G : Prop) (env : Env hash) (S : Set WorkspaceId) (L L' : Loom hash) : Prop :=
  (G → Intact env L) → Relation.ReflTransGen (Act G env S) L L' ∧ (G → Intact env L')

instance : IsPreorder (Loom hash) (Steps G env S) where
  refl _ hi := ⟨.refl, hi⟩
  trans _ _ _ h h' hi :=
    ⟨(h hi).1.trans (h' (h hi).2).1, (h' (h hi).2).2⟩

theorem steps_of_act (h : (G → Intact env L) → Act G env S L L') : Steps G env S L L' :=
  fun hi => ⟨.single (h hi), fun g => (h hi).intact g (hi g)⟩

theorem keeps_dirs {f : Loom hash → SortedMap WorkspaceId DirSet} : Keeps (Steps G env S)
    (modify fun L => { L with dirs := f L } : Update (Loom hash) Unit) :=
  fun L => steps_of_act fun _ => .dirs (f L)

/-! ## Files -/

omit [ToString D] in
theorem exec_storeOnHeap (bytes : Bytes) : exec (Loom.onHeap (storeContent env.toEnv bytes)) L =
    (.ok (env.contentAddress bytes), { L with heap := L.heap.stored env.toEnv bytes }) := by
  rw [Loom.exec_onHeap, exec_storeContent]

omit [ToString D] in
theorem exec_storeAt (path : Path) (bytes : Bytes) (mode : UInt32) :
    exec (storeAt env ns path bytes mode) L =
      (.ok (), putFileSlot { L with heap := L.heap.stored env.toEnv bytes } ns path
        (env.contentAddress bytes) bytes.length mode) := by
  rw [storeAt, exec_bind_of_ok (exec_storeOnHeap bytes)]
  rfl

theorem keeps_storeAt (hns : ns ∈ S) (path : Path) (mode : UInt32)
    (hG : G → Digests env ∧ bytes.length < 2 ^ 64) :
    Keeps (Steps G env S) (storeAt env ns path bytes mode) := by
  intro L
  rw [exec_storeAt]
  exact steps_of_act fun hi => .put hns path _ _ _ mode fun g =>
    fills_stored (hG g).1 (hi g).heap (hG g).2

theorem keeps_writeFile (hns : ns ∈ S) (path : Path) (mode : UInt32)
    (hG : G → Digests env ∧ bytes.length < 2 ^ 64) :
    Keeps (Steps G env S) (writeFile env ns path bytes mode) :=
  keeps_check fun path _ => keeps_check fun _ _ => keeps_bind keeps_get fun _ =>
    keeps_check fun _ _ => keeps_check fun _ _ => keeps_storeAt hns path mode hG

theorem keeps_appendFile (hns : ns ∈ S) (path : Path) (hG : G → Digests env) :
    Keeps (Steps G env S) (appendFile env ns path bytes) := by
  refine keeps_check fun path _ => keeps_check fun _ _ => keeps_bind keeps_get fun _ =>
    keeps_check fun _ _ => keeps_bind keeps_get fun _ => keeps_check fun r _ =>
      keeps_check fun content hext => keeps_storeAt hns path r.2 fun g => ⟨hG g, ?_⟩
  unfold extend at hext
  split_ifs at hext with hlen
  cases hext
  omega

theorem keeps_symlink (hns : ns ∈ S) {target : Bytes} (linkPath : Path)
    (hG : G → Digests env ∧ target.length < 2 ^ 64) :
    Keeps (Steps G env S) (symlink env ns target linkPath) :=
  keeps_check fun path _ => keeps_check fun _ _ => keeps_bind keeps_get fun _ =>
    keeps_check fun _ _ => keeps_storeAt hns path _ hG

theorem keeps_removeFile (hns : ns ∈ S) (path : Path) :
    Keeps (Steps G env S) (removeFile env ns path) :=
  keeps_check fun path _ => keeps_check fun _ _ _ => steps_of_act fun _ => .remove hns path

/-! ## Edits -/

/-- A plan that comes from an edit of whole content. -/
def Planned (h : Heap hash) (plan : EditPlan D) : Prop :=
  ∃ src old edit, Source h src old ∧ plan = Edit.plan src old.length edit ∧
    (edit.apply old).length < 2 ^ 64

variable {plan : EditPlan D}

theorem build_ends (hd : Digests env) (hi : h.Intact env.toEnv) (hp : Planned h plan) :
    Effect.Ends (fun r h' => Fills env h h' r.1 r.2)
      (fun _ h' => Extends env h h') (buildEditedContent env.toEnv plan) h := by
  obtain ⟨src, old, edit, hs, rfl, hfit⟩ := hp
  unfold Effect.Ends
  by_cases hsize : (edit.apply old).length ≤ 2 ^ 64 - blockSize
  · rw [exec_buildEditedContent hd.chunk hs edit hsize]
    exact fills_stored hd hi hfit
  · obtain ⟨pieces, hrun⟩ := exec_buildEditedContent_error env.toEnv hs edit (not_le.mp hsize)
    rw [hrun]
    exact extends_of_grown hi (h.grown_withChunks pieces)

/-- A source of a size. -/
def Sized (h : Heap hash) (src : Option D) (n : ℕ) : Prop :=
  ∃ old, Source h src old ∧ n = old.length ∧ old.length < 2 ^ 64

theorem planWrite_planned {src : Option D} {offset : ℕ} {data : Bytes} (hs : Sized h src n)
    (hp : planWrite src n offset data = .ok plan) : Planned h plan := by
  obtain ⟨old, hold, rfl, hlen⟩ := hs
  unfold planWrite at hp
  split_ifs at hp with hfit
  refine ⟨src, old, .write offset data, hold, (Except.ok.inj hp).symm, ?_⟩
  rw [Edit.length_apply src]
  exact max_lt hlen hfit

theorem truncate_planned {src : Option D} (size : UInt64) (hs : Sized h src n) :
    Planned h (.truncate src n size.toNat) := by
  obtain ⟨old, hold, rfl, -⟩ := hs
  refine ⟨src, old, .truncate size.toNat, hold, rfl, ?_⟩
  rw [Edit.length_apply src]
  exact size.toNat_lt

variable {path : Path}

theorem sized_of_currentSource {r : Option D × ℕ × UInt32} (hi : Intact env L)
    (h : currentSource ns L path = .ok r) : Sized L.heap r.1 r.2.1 := by
  obtain ⟨f, hf, h⟩ := of_bind h
  cases f with
  | none =>
    cases h
    exact ⟨[], rfl, rfl, by simp⟩
  | some f =>
    obtain ⟨n, hn, h⟩ := of_bind h
    cases h
    obtain ⟨bytes, hc, rfl⟩ := content_of_size hi.heap hn
    exact ⟨bytes, hc, rfl, hc.1⟩

theorem steps_build {f : D × ℕ → Update (Loom hash) Unit} (hG : G → Digests env)
    (hplan : G → Intact env L → Planned L.heap plan)
    (hf : ∀ addr size h, (G → Fills env L.heap h addr size) → (G → Intact env L) →
      Steps G env S L (exec (f (addr, size)) { L with heap := h }).2) :
    Steps G env S L (exec (Loom.onHeap (buildEditedContent env.toEnv plan) >>= f) L).2 := by
  intro hi
  have hends := fun g => build_ends (hG g) (hi g).heap (hplan g (hi g))
  rw [exec_bind, Loom.exec_onHeap]
  unfold Effect.Ends at hends
  generalize exec (buildEditedContent env.toEnv plan) L.heap = r at hends ⊢
  obtain ⟨e | ⟨addr, size⟩, h⟩ := r
  · exact steps_of_act (fun _ => .grow h hends) hi
  · exact hf addr size h hends hi hi

theorem keeps_editFile (hns : ns ∈ S) (path : Path)
    {plan : Option D → ℕ → Result (EditPlan D)} (hG : G → Digests env)
    (hplan : ∀ (h : Heap hash) src n r, plan src n = .ok r → Sized h src n → Planned h r) :
    Keeps (Steps G env S) (editFile env ns path plan) := by
  refine keeps_check fun path _ => keeps_check fun _ _ => keeps_bind keeps_get fun _ =>
    keeps_check fun _ _ => keeps_get_bind fun L => keeps_check_of fun ⟨src, n, mode⟩ hcur =>
      keeps_check_of fun r hp => ?_
  exact steps_build hG (fun _ hi => hplan _ src n r hp (sized_of_currentSource hi hcur))
    fun addr size h hfill _ => steps_of_act fun _ => .put hns path h addr size mode hfill

theorem keeps_writeAt (hns : ns ∈ S) (path : Path) (offset : UInt64) (data : Bytes)
    (hG : G → Digests env) : Keeps (Steps G env S) (writeAt env ns path offset data) :=
  keeps_editFile hns path hG fun _ _ _ _ hp hs => planWrite_planned hs hp

theorem keeps_truncateFile (hns : ns ∈ S) (path : Path) (size : UInt64) (hG : G → Digests env) :
    Keeps (Steps G env S) (truncateFile env ns path size) :=
  keeps_editFile hns path hG fun _ _ _ _ hp hs => Except.ok.inj hp ▸ truncate_planned size hs

/-! ## Directories -/

theorem keeps_createDirectory (path : Path) (recursive : Bool) :
    Keeps (Steps G env S) (createDirectory ns path recursive) := by
  refine keeps_check fun norm _ => keeps_check fun _ _ => keeps_bind keeps_get fun L => ?_
  exact keeps_ite (keeps_throw _) (keeps_ite (keeps_pure _) (keeps_ite (keeps_throw _) keeps_dirs))

theorem keeps_removeFiles (hns : ns ∈ S) (paths : List Path) :
    Keeps (Steps G env S) (removeFiles env ns paths) :=
  keeps_forM fun path _ => keeps_removeFile hns path

theorem keeps_removeDirectory (hns : ns ∈ S) (path : Path) (recursive : Bool) :
    Keeps (Steps G env S) (removeDirectory env ns path recursive) := by
  refine keeps_check fun norm _ => keeps_check fun _ _ => keeps_bind keeps_get fun L => ?_
  exact keeps_ite (keeps_throw _) (keeps_ite (keeps_throw _)
    (keeps_bind (keeps_removeFiles hns _) fun _ => keeps_dirs))

theorem steps_recordDirs (L : Loom hash) (s d : Path) (dirs : List Path) :
    Steps G env S L (recordDirs ns L s d dirs) := by
  unfold recordDirs
  have hfirst : Steps G env S L (recordDir L ns d) := steps_of_act fun _ => .dirs _
  generalize recordDir L ns d = L' at hfirst
  induction dirs generalizing L' with
  | nil => exact hfirst
  | cons sd dirs ih => exact ih _ (trans_of (Steps G env S) hfirst (steps_of_act fun _ => .dirs _))

theorem mem_snapshotFiles {s : Path} {files : List CopiedFile} {f : CopiedFile}
    (h : snapshotFiles env ns L s = .ok files) (hf : f ∈ files) :
    ∃ key ∈ childFiles ns L s, readFile env ns L key = .ok f.2.2 ∧
      f.1 = key.drop (s ++ ['/']).length ∧ f.2.1 = (fileMode L ns key).getD defaultFileMode := by
  obtain ⟨key, hkey, hr⟩ := Lists.exists_mem_of_forall₂ (mapM_eq_ok.mp h) hf
  obtain ⟨bytes, hb, hr⟩ := of_bind hr
  cases hr
  exact ⟨key, hkey, hb, rfl, rfl⟩

theorem readFile_length (hi : L.heap.Intact env.toEnv) (h : readFile env ns L path = .ok bytes) :
    bytes.length < 2 ^ 64 := by
  obtain ⟨path, -, h⟩ := of_bind h
  obtain ⟨-, -, h⟩ := of_bind h
  obtain ⟨f, -, h⟩ := of_bind h
  cases f with
  | none => cases h
  | some f =>
    cases hget : L.heap.content.get f.contentAddr with
    | none =>
      change loadContent L.heap f.contentAddr = .ok bytes at h
      rw [loadContent, hget] at h
      cases h
    | some obj =>
      obtain ⟨old, hc, -⟩ := hi _ _ hget
      obtain rfl := Except.ok.inj ((loadContent_content hc).symm.trans h)
      exact hc.1

theorem keeps_copyPath (hns : ns ∈ S) (src dst : Path) (recursive : Bool) (hG : G → Digests env) :
    Keeps (Steps G env S) (copyPath env ns src dst recursive) := by
  refine keeps_check fun s _ => keeps_check fun d _ => keeps_get_bind fun L hi => ?_
  have hlen : ∀ {path bytes}, readFile env ns L path = .ok bytes →
      G → Digests env ∧ bytes.length < 2 ^ 64 :=
    fun hr g => ⟨hG g, readFile_length (hi g).heap hr⟩
  suffices h : Keeps (Steps G env S) (_ : Update (Loom hash) Unit) from h L hi
  refine keeps_ite (keeps_check fun bytes hb => keeps_writeFile hns d _ (hlen hb))
    (keeps_ite (keeps_throw _) (keeps_ite (keeps_throw _) ?_))
  refine keeps_check fun files hfiles => keeps_bind (fun L => steps_recordDirs L s d _) fun _ => ?_
  refine keeps_forM fun f hf => ?_
  obtain ⟨key, -, hr, -, -⟩ := mem_snapshotFiles hfiles hf
  exact keeps_writeFile hns _ _ (hlen hr)

theorem keeps_removeSource (hns : ns ∈ S) (s : Path) :
    Keeps (Steps G env S) (removeSource env ns s) :=
  keeps_bind keeps_get fun _ => keeps_ite (keeps_removeFile hns s)
    (keeps_bind (keeps_removeFiles hns _) fun _ => keeps_dirs)

theorem keeps_movePath (hns : ns ∈ S) (src dst : Path) (hG : G → Digests env) :
    Keeps (Steps G env S) (movePath env ns src dst) :=
  keeps_check fun s _ => keeps_check fun _ _ => keeps_check fun _ _ => keeps_check fun _ _ =>
    keeps_bind (keeps_copyPath hns src dst true hG) fun _ => keeps_removeSource hns s

/-! ## Handles -/

variable {id : UInt64}

omit [ToString D] in
theorem exec_applyInodeContent (addr : D) (size : ℕ) : exec (applyInodeContent id addr size) L =
      match L.inodes.get id with
      | none => (.error (.notFound "inode"), L)
      | some ino => (.ok (), applied L id ino addr size) := by
  rw [applyInodeContent, exec_get_bind]
  cases L.inodes.get id with
  | none => rfl
  | some ino =>
    obtain ⟨_, path, _⟩ := ino
    cases path <;> rfl

variable {ino : Inode D}

theorem steps_editInode (hino : L.inodes.get id = some ino) {plan : Result (EditPlan D)}
    (hG : G → Digests env)
    (hplan : ∀ r, plan = .ok r → Sized L.heap (some ino.contentAddr) ino.size.toNat →
      Planned L.heap r) :
    Steps G env S L (exec (editInode env id plan) L).2 := by
  refine keeps_check_of fun r hp => steps_build hG (fun _ hi => ?_) fun addr size h hfill _ => ?_
  · obtain ⟨bytes, hc, hlen⟩ := hi.inode hino
    exact hplan r hp ⟨bytes, hc, hlen, hc.1⟩
  · rw [exec_applyInodeContent]
    rw [hino]
    exact steps_of_act fun _ => .apply hino h addr size hfill

omit [ToString D] in
theorem get_of_handle {h : UInt64} {oh : OpenHandle} (hoh : handle L h = .ok oh) :
    L.handles.get h = some oh := by
  unfold handle at hoh
  split at hoh
  · next h => rw [h, Except.ok.inj hoh]
  · cases hoh

omit [ToString D] in
theorem get_of_handleInode (hino : handleInode L id = .ok ino) : L.inodes.get id = some ino := by
  unfold handleInode at hino
  split at hino
  · next h => rw [h, Except.ok.inj hino]
  · cases hino

omit [ToString D] in
theorem get_of_writingHandle {h : UInt64} {r : OpenHandle × Inode D}
    (hr : writingHandle env L h = .ok r) :
    L.handles.get h = some r.1 ∧ L.inodes.get r.1.inode = some r.2 := by
  obtain ⟨oh, hoh, hr⟩ := of_bind hr
  split_ifs at hr
  obtain ⟨-, -, hr⟩ := of_bind hr
  obtain ⟨ino, hino, hr⟩ := of_bind hr
  cases hr
  exact ⟨get_of_handle hoh, get_of_handleInode hino⟩

theorem keeps_writing {α : Type} {h : UInt64}
    {f : Loom hash → OpenHandle × Inode D → Update (Loom hash) α}
    (hf : ∀ L r, L.inodes.get r.1.inode = some r.2 → Steps G env S L (exec (f L r) L).2) :
    Keeps (Steps G env S) (get >>= fun L => liftM (writingHandle env L h) >>= f L) :=
  keeps_get_bind fun L => keeps_check_of fun r hr => hf L r (get_of_writingHandle hr).2

theorem keeps_seek (h : UInt64) (f : UInt64 → UInt64) : Keeps (Steps G env S)
    (modify fun L => setOffset L h f : Update (Loom hash) Unit) :=
  fun _ => steps_of_act fun _ => .seek h f

theorem keeps_fileWrite (h : UInt64) (data : Bytes) (hG : G → Digests env) :
    Keeps (Steps G env S) (fileWrite env h data) :=
  keeps_writing fun _ _ hino => keeps_bind_of
    (steps_editInode hino hG fun _ hp hs => planWrite_planned hs hp)
    fun _ => keeps_bind (keeps_seek h _) fun _ => keeps_pure _

theorem keeps_fileWriteAt (h offset : UInt64) (data : Bytes) (hG : G → Digests env) :
    Keeps (Steps G env S) (fileWriteAt env h offset data) :=
  keeps_writing fun _ _ hino => keeps_bind_of
    (steps_editInode hino hG fun _ hp hs => planWrite_planned hs hp) fun _ => keeps_pure _

theorem keeps_fileTruncate (h size : UInt64) (hG : G → Digests env) :
    Keeps (Steps G env S) (fileTruncate env h size) :=
  keeps_writing fun _ _ hino =>
    steps_editInode hino hG fun _ hp hs => Except.ok.inj hp ▸ truncate_planned size hs

theorem keeps_fileRead (h len : UInt64) : Keeps (Steps G env S) (fileRead env h len) :=
  keeps_bind keeps_get fun _ => keeps_check fun _ _ => keeps_check fun _ _ =>
    keeps_bind (keeps_seek h _) fun _ => keeps_pure _

theorem keeps_fileClose (h : UInt64) :
    Keeps (Steps G env S) (fileClose h : Update (Loom hash) Unit) :=
  keeps_get_bind fun _ => keeps_check_of fun _ hoh => steps_of_act fun _ => .close (get_of_handle hoh)

/-! ## Opening -/

variable {mode : OpenMode}

theorem steps_openHandle {L₁ : Loom hash} (hG : G → Digests env)
    (hino : L₁.inodes.get id = some ino) (hroom : L₁.nextHandle.toNat + 1 < 2 ^ 64)
    (hmid : Steps G env S L (withHandle L₁ ⟨id, 0, mode⟩)) :
    Steps G env S L (exec (openHandle env (.ok ()) id mode) L₁).2 := by
  have halloc : ∀ L₂ : Loom hash, L₂.nextHandle = L₁.nextHandle →
      exec (allocHandle ⟨id, 0, mode⟩) L₂ = (.ok L₂.nextHandle, withHandle L₂ ⟨id, 0, mode⟩) := by
    intro L₂ h2
    rw [allocHandle, exec_get_bind, if_pos (h2 ▸ hroom)]
    rfl
  unfold openHandle
  split_ifs with hmode
  · have happly : exec (applyInodeContent id (env.contentAddress []) 0)
        { L₁ with heap := L₁.heap.stored env.toEnv [] } = (.ok (), applied
          { L₁ with heap := L₁.heap.stored env.toEnv [] } id ino (env.contentAddress []) 0) := by
      rw [exec_applyInodeContent]
      rw [hino]
    rw [exec_lift_bind_of_ok rfl, exec_bind_of_ok (exec_storeOnHeap []), exec_bind_of_ok happly,
      halloc (applied
      { L₁ with heap := L₁.heap.stored env.toEnv [] } id ino (env.contentAddress []) 0) rfl]
    refine trans_of (Steps G env S) hmid (steps_of_act fun hi => ?_)
    have hfill : G → Fills env L₁.heap (L₁.heap.stored env.toEnv []) (env.contentAddress []) 0 :=
      fun g => fills_stored (hG g) (hi g).heap (by decide)
    exact Act.apply (L := withHandle L₁ ⟨id, 0, mode⟩) hino (L₁.heap.stored env.toEnv []) _ 0 hfill
  · rw [halloc _ rfl]
    exact hmid

omit [ToString D] in
theorem exec_linkInode (addr : D) (size : ℕ) (mode : UInt32) :
    exec (linkInode ns path addr size mode) L = if L.nextInode.toNat + 1 < 2 ^ 64 then
      (.ok L.nextInode, withInode L ns path addr size mode) else (.error overflow, L) := by
  rw [linkInode, allocInode]
  simp only [bind_assoc, exec_get_bind]
  split_ifs <;> rfl

theorem steps_linkInode {f : StagedFile D} {size : ℕ} (hG : G → Digests env) (hns : ns ∈ S)
    (hroom : L.nextHandle.toNat + 1 < 2 ^ 64)
    (hnone : L.pathToInode.get (toLex (ns, path)) = none)
    (hslot : slot L ns path = some (.file f))
    (hsize : G → contentSize L.heap f.contentAddr = .ok size) :
    Steps G env S L
      (exec (linkInode ns path f.contentAddr size f.mode >>= fun id =>
        openHandle env (.ok ()) id mode) L).2 := by
  rw [exec_bind, exec_linkInode]
  split_ifs with hinode
  · refine steps_openHandle hG (get_insert .. |>.trans (if_pos rfl)) hroom ?_
    exact steps_of_act fun _ => .link hns hnone hslot size hsize hinode hroom mode
  · exact refl_of (Steps G env S) L

omit [ToString D] in
theorem putFileSlot_of_none (hnone : L.pathToInode.get (toLex (ns, path)) = none) (addr : D)
    (size : ℕ) (mode : UInt32) :
    putFileSlot L ns path addr size mode = setSlot L ns path (.file ⟨addr, mode⟩) := by
  unfold putFileSlot updateOpen
  rw [hnone]

theorem steps_create (hG : G → Digests env) (hns : ns ∈ S) (hroom : L.nextHandle.toNat + 1 < 2 ^ 64)
    (hnone : L.pathToInode.get (toLex (ns, path)) = none) :
    Steps G env S L (exec (do
      let empty ← Loom.onHeap (storeContent env.toEnv [])
      let id ← linkInode ns path empty 0 defaultFileMode
      modify fun L => setSlot L ns path (.file ⟨empty, defaultFileMode⟩)
      openHandle env (.ok ()) id mode) L).2 := by
  intro hi
  have hfill : G → Fills env L.heap (L.heap.stored env.toEnv []) (env.contentAddress []) 0 :=
    fun g => fills_stored (hG g) (hi g).heap (by decide)
  rw [exec_bind_of_ok (exec_storeOnHeap []), exec_bind, exec_linkInode]
  split_ifs with hinode
  · -- the slot may as well be set before the inode is linked
    have hput : Steps G env S L (putFileSlot { L with heap := L.heap.stored env.toEnv [] } ns path
        (env.contentAddress []) 0 defaultFileMode) :=
      steps_of_act fun _ => .put hns path _ _ 0 defaultFileMode hfill
    rw [putFileSlot_of_none (L := { L with heap := L.heap.stored env.toEnv [] }) hnone] at hput
    dsimp only
    refine trans_of (Steps G env S) hput ?_ hi
    refine steps_openHandle hG (get_insert .. |>.trans (if_pos rfl)) hroom ?_
    refine steps_of_act fun _ => Act.link (L := setSlot { L with heap := L.heap.stored env.toEnv [] }
      ns path (.file ⟨env.contentAddress [], defaultFileMode⟩))
      (f := ⟨env.contentAddress [], defaultFileMode⟩) hns hnone ?_ 0 ?_ hinode hroom mode
    · rw [slot_setSlot, if_pos ⟨rfl, rfl⟩]
    · intro g
      obtain ⟨bytes, hc, hlen⟩ := (hfill g).filled
      rw [hlen]
      exact contentSize_content hc
  · exact steps_of_act (fun _ => .grow _ fun g => (hfill g).toExtends) hi

omit [ToString D] in
theorem fileSlot_eq_some {f : StagedFile D} :
    fileSlot L ns path = .ok (some f) ↔ slot L ns path = some (.file f) := by
  unfold fileSlot
  split
  · next h => simp [h]
  · next f' h => simp [h]
  · next e hne h =>
    rw [h]
    exact ⟨nofun, fun he => absurd (Option.some.inj he) (hne f)⟩

theorem steps_fileOpen (hG : G → Digests env) (hns : ns ∈ S)
    (hroom : L.nextHandle.toNat + 1 < 2 ^ 64)
    (hback : ∀ path id, L.pathToInode.get (toLex (ns, path)) = some id → L.inodes.get id ≠ none)
    (created : Result Unit) (path : Path) (mode : OpenMode) :
    Steps G env S L (exec (fileOpenWith env ns created (.ok ()) path mode) L).2 := by
  refine keeps_check_of fun path _ => ?_
  rw [exec_get_bind]
  refine keeps_check_of fun _ _ => ?_
  rw [openInode, bind_assoc, exec_get_bind]
  cases hopen : L.pathToInode.get (toLex (ns, path)) with
  | some id =>
    obtain ⟨ino, hino⟩ := Option.ne_none_iff_exists'.mp (hback path id hopen)
    dsimp only
    rw [shareInode, bind_assoc, exec_get_bind, hino]
    dsimp only
    by_cases hcount : ino.openCount.toNat + 1 < 2 ^ 32
    · rw [if_pos hcount, bind_assoc, exec_modify_bind, pure_bind]
      have hmore : (updateInode L id fun ino =>
          { ino with openCount := ino.openCount + 1 }).inodes.get id =
            some { ino with openCount := ino.openCount + 1 } :=
        (get_update ..).trans (by rw [if_pos rfl, hino]; rfl)
      exact steps_openHandle hG hmore hroom (steps_of_act fun _ => .share hino hcount hroom mode)
    · rw [if_neg hcount]
      exact refl_of (Steps G env S) L
  | none =>
    rw [bind_assoc]
    refine keeps_check_of fun f hslot => ?_
    cases f with
    | some f =>
      rw [bind_assoc]
      exact keeps_check_of fun size hsize =>
        steps_linkInode hG hns hroom hopen (fileSlot_eq_some.mp hslot) fun _ => hsize
    | none =>
      split_ifs with hread hparent
      · exact refl_of (Steps G env S) L
      · simp only [bind_assoc, pure_bind]
        exact keeps_check_of fun _ _ => steps_create hG hns hroom hopen
      · exact refl_of (Steps G env S) L

/-! ## Operations -/

/-- Whether an operation replaces slots by those of a commit. -/
def Op.IsCheckout : Op D → Prop
  | .checkoutCommit _ => True
  | .checkoutBranch _ => True
  | .restoreFile _ _ => True
  | .restorePath _ _ => True
  | _ => False

/-- The byte strings an operation is given are shorter than the address space. -/
def Op.Sized : Op D → Prop
  | .writeFile _ bytes _ => bytes.length < 2 ^ 64
  | .symlink target _ => target.length < 2 ^ 64
  | _ => True

/-- **Every operation is a chain of changes**, with room for one more handle. -/
theorem steps_run {op : Op D} (hop : ¬ op.IsCheckout) (hG : G → Digests env ∧ op.Sized)
    (hns : ns ∈ S) (hroom : ∀ path mode, op = .fileOpen path mode → L.nextHandle.toNat + 1 < 2 ^ 64)
    (hback : ∀ path id, L.pathToInode.get (toLex (ns, path)) = some id → L.inodes.get id ≠ none) :
    Steps G env S L (exec (op.run env ns) L).2 := by
  have hd : G → Digests env := fun g => (hG g).1
  cases op with
  | writeFile path bytes mode => exact keeps_writeFile hns path mode hG L
  | appendFile path bytes => exact keeps_appendFile hns path hd L
  | writeAt path offset data => exact keeps_writeAt hns path offset data hd L
  | truncateFile path size => exact keeps_truncateFile hns path size hd L
  | symlink target linkPath => exact keeps_symlink hns linkPath hG L
  | removeFile path => exact keeps_removeFile hns path L
  | createDirectory path recursive => exact keeps_createDirectory path recursive L
  | removeDirectory path recursive => exact keeps_removeDirectory hns path recursive L
  | copyPath src dst recursive => exact keeps_copyPath hns src dst recursive hd L
  | movePath src dst => exact keeps_movePath hns src dst hd L
  | fileOpen path mode =>
    exact keeps_bind_of (steps_fileOpen hd hns (hroom path mode rfl) hback (.ok ()) path mode)
      fun _ => keeps_pure _
  | fileRead h len => exact keeps_bind (keeps_fileRead h len) (fun _ => keeps_pure _) L
  | fileWrite h data => exact keeps_bind (keeps_fileWrite h data hd) (fun _ => keeps_pure _) L
  | fileWriteAt h offset data =>
    exact keeps_bind (keeps_fileWriteAt h offset data hd) (fun _ => keeps_pure _) L
  | fileTruncate h size => exact keeps_fileTruncate h size hd L
  | fileClose h => exact keeps_fileClose h L
  | checkoutCommit commit => exact absurd trivial hop
  | checkoutBranch branch => exact absurd trivial hop
  | restoreFile rev path => exact absurd trivial hop
  | restorePath rev pre => exact absurd trivial hop

end UldrenLoom.Fs
