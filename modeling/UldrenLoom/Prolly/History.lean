import UldrenLoom.Prolly.Simulate
import UldrenLoom.Lib.LevelDefect

/-!
# History independence

Whether an incremental edit of a built tree gives the tree that `build` gives over the edited
entries.

* **`insert_build`**: an insertion into a built tree gives the built tree of the new entries, and
  never falls back to a rebuild.
* **`remove_build_iff`**: a removal gives the built tree exactly when it has no defect
  (`LevelTree.Defect`).
-/

set_option linter.unusedSectionVars false

namespace UldrenLoom.Prolly

open ByteString Fallible LevelTree Chunk OrdMap

variable {D : Type} [ToString D] [DecidableEq D] {hash : Node D → D} {B : Bytes → ℕ → Bool}
  (hinj : Function.Injective hash)

/-! ## Digests that do not collide -/

/-- The digests of a hash without collisions: a digest is the node it stands for. -/
inductive FreeDigest where
  | leaf (entries : List (Bytes × Bytes))
  | internal (children : List (Bytes × FreeDigest))

namespace FreeDigest

def ofNode : Node FreeDigest → FreeDigest
  | .leaf es => .leaf es
  | .internal ch => .internal ch

theorem ofNode_injective : Function.Injective ofNode := by
  intro a b h
  cases a <;> cases b <;> simp_all [ofNode]

instance : ToString FreeDigest := ⟨fun _ => "node"⟩

mutual

def decEq : (a b : FreeDigest) → Decidable (a = b)
  | .leaf es, .leaf fs => decidable_of_iff (es = fs) (by simp)
  | .leaf _, .internal _ => isFalse nofun
  | .internal _, .leaf _ => isFalse nofun
  | .internal ch, .internal dh =>
    match decEqRun ch dh with
    | isTrue h => isTrue (by rw [h])
    | isFalse h => isFalse (by simpa using h)
termination_by structural a => a

def decEqRun : (a b : List (Bytes × FreeDigest)) → Decidable (a = b)
  | [], [] => isTrue rfl
  | [], _ :: _ => isFalse nofun
  | _ :: _, [] => isFalse nofun
  | (k, d) :: ch, (l, e) :: dh =>
    match decEq d e, decEqRun ch dh with
    | isTrue h, isTrue h' => decidable_of_iff (k = l) (by simp [h, h'])
    | isFalse h, _ => isFalse (by simp [h])
    | _, isFalse h => isFalse (by simp [h])
termination_by structural a => a

end

instance : DecidableEq FreeDigest := decEq

end FreeDigest

abbrev FreeStore := MemoryStore FreeDigest.ofNode

def leafStore (es : List (Bytes × Bytes)) : FreeStore := (MemoryStore.new.put (.leaf es)).2

/-- Ends a leaf at the key `2`. -/
def endsAtTwo (key : Bytes) (level : ℕ) : Bool := key == [2] && level == 0

/-- A root over the leaf of the keys `1` and `2` and a leaf of the entries `es`, up to the key `k`. -/
def twoLeaves (k : Bytes) (es : List (Bytes × Bytes)) : FreeDigest :=
  .internal [([2], .leaf [([1], []), ([2], [])]), (k, .leaf es)]

def putTwoLeaves (k : Bytes) (es : List (Bytes × Bytes)) (s : FreeStore) : FreeStore :=
  (((s.put (.leaf [([1], []), ([2], [])])).2.put (.leaf es)).2.put
    (.internal [([2], .leaf [([1], []), ([2], [])]), (k, .leaf es)])).2

/-! ## Building -/

theorem build_nil (s : MemoryStore hash) : build B [] s = .ok (none, s) := rfl

variable {E : List (Bytes × Bytes)}

include hinj in
/-- **A build gives the canonical tree**, unless that has more than `254` levels above its leaves. -/
theorem build_top (hE : E ≠ []) (s : MemoryStore hash) :
    (∃ T d s', IsTop B E T ∧ T.1 ≤ 254 ∧ build B E s = .ok (some d, s') ∧ s ≤ s' ∧
      Rep s'.readNode T.1 T.2 d) ∨
    (build B E s = .error tooTall ∧ 1 < (forest B 254 E).length) := by
  have hb := build_rep (B := B) hinj hE s
  cases hr : raise B 254 0 (forest B 0 E) with
  | some T =>
    rw [hr] at hb
    obtain ⟨d, s', hbuild, hle, hrep⟩ := hb
    obtain ⟨htop, hn⟩ := isTop_of_raise hE 254 0 (fun m hm => absurd hm (Nat.not_lt_zero m)) hr
    exact .inl ⟨T, d, s', htop, by omega, hbuild, hle, hrep⟩
  | none =>
    rw [hr] at hb
    refine .inr ⟨hb, not_le.mp fun hle => ?_⟩
    obtain ⟨T, hT, -⟩ := raise_forest hE 254 0 (fun m hm => absurd hm (Nat.not_lt_zero m))
      (by rwa [Nat.zero_add])
    rw [hr] at hT
    exact absurd hT.symm (Option.some_ne_none T)

variable {T : Top Bytes Bytes}

include hinj in
theorem build_of_isTop (hE : E ≠ []) (hT : IsTop B E T) (hn : T.1 ≤ 254) (s : MemoryStore hash) :
    ∃ s', build B E s = .ok (some (digestOf hash T.1 T.2), s') := by
  rcases build_top (B := B) hinj hE s with ⟨T', d, s', hT', -, hb, -, hrep⟩ | ⟨-, hlt⟩
  · rw [hT.unique hT', hrep.digest]
    exact ⟨s', hb⟩
  · have := length_forest_le (B := B) hn E
    rw [hT.1, List.length_singleton] at this
    omega

variable {s : MemoryStore hash}

include hinj in
theorem isTop_of_build {s' : MemoryStore hash} {d : D} (h : build B E s = .ok (some d, s')) :
    E ≠ [] ∧ ∃ T, IsTop B E T ∧ T.1 ≤ 254 ∧ Rep s'.readNode T.1 T.2 d := by
  by_cases hE : E = []
  · subst hE
    rw [build_nil] at h
    exact absurd (Prod.mk.inj (Except.ok.inj h)).1.symm (Option.some_ne_none d)
  · rcases build_top (B := B) hinj hE s with ⟨T, d', s1, hT, hn, hb, -, hrep⟩ | ⟨hb, -⟩
    · rw [h] at hb
      obtain ⟨hd, rfl⟩ := Prod.mk.inj (Except.ok.inj hb)
      cases hd
      exact ⟨hE, T, hT, hn, hrep⟩
    · rw [h] at hb
      exact absurd hb (by simp)

include hinj in
theorem finish_top (hE : E ≠ []) {n : ℕ} {nodes : ChildRun D}
    (h : RepRun s.readNode n (forest B n E) nodes) (hn : n ≤ maxDepth)
    (hlen : (forest B 255 E).length ≤ 1) :
    ∃ T s', IsTop B E T ∧ finish B nodes n s = .ok (digestOf hash T.1 T.2, s') := by
  have hle : n ≤ 255 := hn.trans (by decide)
  obtain ⟨T, hT, htop⟩ := finish_forest hE (Nat.add_sub_cancel' hle) hlen
  have hf := finish_rep (B := B) hinj h (fun he => hE (forest_eq_nil.mp he)) hn
  rw [hT] at hf
  obtain ⟨d, s', hfin, -, hrep⟩ := hf
  exact ⟨_, s', htop, by rw [hrep.digest]; exact hfin⟩

/-! ## Insertion -/

theorem height_eq_ok {d : D} {h : ℕ} (hrep : Rep s.readNode T.1 T.2 d) (hf : Full T.1 T.2)
    (hh : height s.readNode d = .ok h) : T.1 = h ∧ T.1 ≤ maxDepth := by
  rw [height_rep hrep hf] at hh
  split_ifs at hh with hn
  exact ⟨Except.ok.inj hh, hn⟩

variable {r : D}

include hinj in
theorem mutate_set (hE : Ascending E) (hT : IsTop B E T) (hrep : Rep s.readNode T.1 T.2 r)
    (k v : Bytes) :
    ∃ nodes s', mutate B k (.set v) T.1 r true s = .ok (some nodes, s') ∧
      RepRun s'.readNode T.1 (forest B T.1 (OrdMap.insert k v E)) nodes := by
  have hasc : Ascending (flatten T.1 T.2) := by rwa [hT.flatten_eq]
  have hm := mutate_rep (B := B) hinj k (.set v) true hrep hT.full
  rw [edit_congr (fun es hes => apply_set k v hes) T.1 hasc,
    edit_insert v T.1 hT.canonical hasc (.inl rfl), hT.flatten_eq] at hm
  obtain ⟨nodes, s', hmut, -, hrun⟩ := hm
  exact ⟨nodes, s', hmut, hrun⟩

theorem insert_ne_nil (k v : Bytes) (E : List (Bytes × Bytes)) : OrdMap.insert k v E ≠ [] := by
  intro h
  have := get_insert k k v E
  rw [h] at this
  simp at this

include hinj in
/-- **An insertion into a built tree is a build over the new entries**, on the local path. -/
theorem insert_build {E : List (Bytes × Bytes)} (hE : Ascending E) {s s1 s' s'' : MemoryStore hash}
    {root : Option D} {d : D} (k v : Bytes) (hb : build B E s = .ok (root, s1))
    (hh : ∀ r ∈ root, ∃ h, height s1.readNode r = .ok h)
    (hb' : build B (OrdMap.insert k v E) s' = .ok (some d, s'')) :
    (∃ s2, insert B root k v s1 = .ok (d, s2)) ∧ ∀ r ∈ root, ∀ h, height s1.readNode r = .ok h →
        ∃ nodes s2, mutate B k (.set v) h r true s1 = .ok (some nodes, s2) := by
  obtain ⟨hne', T', hT', hn', hrep'⟩ := isTop_of_build hinj hb'
  cases root with
  | none =>
    refine ⟨?_, fun r hr => absurd hr (by simp)⟩
    -- an empty tree: the new entry is built on its own
    have hE0 : E = [] := by
      by_contra hne
      rcases build_top (B := B) hinj hne s with ⟨_, _, _, _, _, h, _⟩ | ⟨h, _⟩
      · exact absurd ((Except.ok.inj (h.symm.trans hb))) (by simp)
      · exact absurd (h.symm.trans hb) (by simp)
    subst hE0
    obtain ⟨s2, hs2⟩ := build_of_isTop hinj hne' hT' hn' s1
    refine ⟨s2, ?_⟩
    rw [insert, show [(k, v)] = OrdMap.insert k v [] from rfl, hs2, hrep'.digest]
    rfl
  | some r =>
    obtain ⟨-, T, hT, -, hrep⟩ := isTop_of_build hinj hb
    obtain ⟨nodes, s2, hmut, hrun⟩ := mutate_set hinj hE hT hrep k v
    obtain ⟨h, hh⟩ := hh r rfl
    obtain ⟨rfl, hle⟩ := height_eq_ok hrep hT.full hh
    constructor
    · have hlen : (forest B 255 (OrdMap.insert k v E)).length ≤ 1 := by
        have := length_forest_le (B := B) (hn'.trans (Nat.le_succ 254)) (OrdMap.insert k v E)
        rwa [hT'.1] at this
      obtain ⟨T'', s3, hT'', hfin⟩ := finish_top hinj (insert_ne_nil k v E) hrun hle hlen
      refine ⟨s3, ?_⟩
      rw [insert, hh, ok_bind, hmut, ok_bind]
      dsimp only
      rw [hfin, hT''.unique hT', hrep'.digest]
    · intro r' hr' h' hh'
      cases hr'
      rw [hh] at hh'
      cases hh'
      exact ⟨nodes, s2, hmut⟩

/-- The second of two leaves gets a key. -/
theorem insert_build_twoLeaves :
    (∃ s2, insert endsAtTwo (some (twoLeaves [3] [([3], [])])) [4] [7]
      (putTwoLeaves [3] [([3], [])] .new) = .ok (twoLeaves [4] [([3], []), ([4], [7])], s2)) ∧
    ∃ nodes s2, mutate endsAtTwo [4] (.set [7]) 1 (twoLeaves [3] [([3], [])]) true
      (putTwoLeaves [3] [([3], [])] .new) = .ok (some nodes, s2) := by
  have hheight : height (putTwoLeaves [3] [([3], [])] .new).readNode (twoLeaves [3] [([3], [])]) =
    .ok 1 := rfl
  have hbuild : build endsAtTwo [([1], []), ([2], []), ([3], []), ([4], [7])] (.new : FreeStore) =
    .ok (some (twoLeaves [4] [([3], []), ([4], [7])]), putTwoLeaves [4] [([3], []), ([4], [7])] .new) :=
    rfl
  obtain ⟨hinsert, hmutate⟩ := insert_build (s := .new) (E := [([1], []), ([2], []), ([3], [])])
    FreeDigest.ofNode_injective (by decide) [4] [7] rfl
    (fun r hr => ⟨1, Option.some.inj hr ▸ hheight⟩) hbuild
  exact ⟨hinsert, hmutate _ rfl 1 hheight⟩

/-! ## Removal -/

variable {k : Bytes}

include hinj in
theorem mutate_remove (hE : Ascending E) (hT : IsTop B E T) (hrep : Rep s.readNode T.1 T.2 r)
    (hd : ¬ Defect B k E) :
    mutate B k .remove T.1 r true s = .ok (none, s) ∨
    ∃ nodes s', mutate B k .remove T.1 r true s = .ok (some nodes, s') ∧
      RepRun s'.readNode T.1 (forest B T.1 (OrdMap.erase k E)) nodes := by
  have hasc : Ascending (flatten T.1 T.2) := by rwa [hT.flatten_eq]
  have hm := mutate_rep (B := B) hinj k .remove true hrep hT.full
  rw [edit_congr (fun es hes => apply_remove k hes) T.1 hasc] at hm
  cases he : edit B (OrdMap.erase k) k T.1 T.2 true with
  | none =>
    rw [he] at hm
    exact .inl hm
  | some us =>
    obtain ⟨rfl, -⟩ := edit_erase T.1 hT.canonical hasc (.inl rfl) (by rwa [hT.flatten_eq]) he
    rw [he, hT.flatten_eq] at hm
    obtain ⟨nodes, s', hmut, -, hrun⟩ := hm
    exact .inr ⟨nodes, s', hmut, hrun⟩

include hinj in
theorem remove_of_not_defect (hE : Ascending E) (hT : IsTop B E T)
    (hrep : Rep s.readNode T.1 T.2 r) (hn : T.1 ≤ maxDepth) (hd : ¬ Defect B k E) :
    ∃ o s2, remove B r k s = .ok (o, s2) ∧
      ∀ s' : MemoryStore hash, ∃ s3, build B (OrdMap.erase k E) s' = .ok (o, s3) := by
  have hh : height s.readNode r = .ok T.1 := by rw [height_rep hrep hT.full, if_pos hn]
  have hlen : (forest B T.1 (OrdMap.erase k E)).length ≤ 1 := by
    have := length_forest_erase_le (B := B) T.1 k E
    rwa [hT.1] at this
  by_cases hne : OrdMap.erase k E = []
  · -- nothing remains
    rw [hne]
    refine ⟨none, ?_⟩
    rcases mutate_remove hinj hE hT hrep hd with hmut | ⟨nodes, s', hmut, hrun⟩
    · refine ⟨s, ?_, fun s' => ⟨s', rfl⟩⟩
      rw [remove, hh, ok_bind, hmut, ok_bind]
      dsimp only
      rw [rebuildWith, entries_rep hrep hn, ok_bind, hT.flatten_eq, apply_remove k hE, hne]
      rfl
    · rw [hne, forest_eq_nil.mpr rfl] at hrun
      cases hrun
      refine ⟨s', ?_, fun s' => ⟨s', rfl⟩⟩
      rw [remove, hh, ok_bind, hmut]
      rfl
  · obtain ⟨T', hT', hle⟩ := exists_isTop hne hlen
    have hn' : T'.1 ≤ 254 := (hle.trans hn).trans (by decide)
    have hbuild := build_of_isTop hinj hne hT' hn'
    refine ⟨some (digestOf hash T'.1 T'.2), ?_⟩
    rcases mutate_remove hinj hE hT hrep hd with hmut | ⟨nodes, s', hmut, hrun⟩
    · obtain ⟨s2, hs2⟩ := hbuild s
      refine ⟨s2, ?_, hbuild⟩
      rw [remove, hh, ok_bind, hmut, ok_bind]
      dsimp only
      rw [rebuildWith, entries_rep hrep hn, ok_bind, hT.flatten_eq, apply_remove k hE, hs2]
    · have hlen' : (forest B 255 (OrdMap.erase k E)).length ≤ 1 :=
        (length_forest_le (hn.trans (by decide)) _).trans hlen
      obtain ⟨T'', s2, hT'', hfin⟩ := finish_top hinj hne hrun hn hlen'
      refine ⟨s2, ?_, hbuild⟩
      have hnodes : nodes ≠ [] := fun hnil => hne (forest_eq_nil.mp
        (List.length_eq_zero_iff.mp (by rw [hrun.length_eq, hnil]; rfl)))
      obtain ⟨c, cs, rfl⟩ := List.exists_cons_of_ne_nil hnodes
      rw [remove, hh, ok_bind, hmut, ok_bind]
      dsimp only
      rw [hfin, hT''.unique hT']
      rfl

include hinj in
theorem remove_of_defect (hE : Ascending E) (hT : IsTop B E T) (hrep : Rep s.readNode T.1 T.2 r)
    (hn : T.1 ≤ maxDepth) (hd : Defect B k E) {o : Option D} {s2 s' s3 : MemoryStore hash}
    (hr : remove B r k s = .ok (o, s2)) : build B (OrdMap.erase k E) s' ≠ .ok (o, s3) := by
  intro hb
  have hh : height s.readNode r = .ok T.1 := by rw [height_rep hrep hT.full, if_pos hn]
  have hasc : Ascending (flatten T.1 T.2) := by rwa [hT.flatten_eq]
  obtain ⟨us, hus, hbad⟩ := edit_erase_defect hE hT hd
  obtain ⟨hcont, hfull⟩ := edit_contents (local_erase k) T.1 hT.full hasc hus
  have hm := mutate_rep (B := B) hinj k .remove true hrep hT.full
  rw [edit_congr (fun es hes => apply_remove k hes) T.1 hasc, hus] at hm
  obtain ⟨nodes, s1, hmut, -, hrun⟩ := hm
  have hne : OrdMap.erase k E ≠ [] := by
    obtain ⟨A, p, x, C, rfl, -⟩ := hd
    rw [show A ++ p :: (k, x) :: C = (A ++ [p]) ++ (k, x) :: C by simp] at hE ⊢
    rw [erase_middle hE]
    simp
  have husne : us ≠ [] := fun hnil => hne (by rw [← hT.flatten_eq, ← hcont, hnil]; rfl)
  have hnodes : nodes ≠ [] := fun hnil => husne
    (List.length_eq_zero_iff.mp (by rw [hrun.length_eq, hnil]; rfl))
  have hf := finish_rep (B := B) hinj hrun husne hn
  rw [remove, hh, ok_bind, hmut, ok_bind] at hr
  obtain ⟨c, cs, rfl⟩ := List.exists_cons_of_ne_nil hnodes
  obtain ⟨⟨d, s4⟩, hfin, hd'⟩ := of_bind hr
  obtain ⟨rfl, -⟩ := Prod.mk.inj (Except.ok.inj hd')
  obtain ⟨-, T', hT', -, hrep'⟩ := isTop_of_build hinj hb
  cases hraise : raise B (255 - T.1) T.1 us with
  | none =>
    rw [hraise] at hf
    rw [hf] at hfin
    exact absurd hfin (by simp)
  | some U =>
    rw [hraise] at hf
    obtain ⟨d', s5, hfin', -, hrepU⟩ := hf
    rw [hfin] at hfin'
    obtain ⟨rfl, -⟩ := Prod.mk.inj (Except.ok.inj hfin')
    have hUf := collapse_full U.1 (raise_contents hraise hfull).2
    have heq : collapse U.1 U.2 = T' :=
      digestOf_injective hinj hUf hT'.full (hrepU.digest.trans hrep'.digest.symm)
    refine hbad _ U hraise ?_
    rw [heq]
    exact hT'

include hinj in
/-- **A removal from a built tree is a build over the remaining entries exactly when it has no
defect.** -/
theorem remove_build_iff {E : List (Bytes × Bytes)} (hE : Ascending E) {s s1 : MemoryStore hash} {r : D}
    {h : ℕ} (hb : build B E s = .ok (some r, s1)) (hh : height s1.readNode r = .ok h) (k : Bytes) :
    (∃ o s2, remove B r k s1 = .ok (o, s2) ∧
      ∀ s' : MemoryStore hash, ∃ s3, build B (OrdMap.erase k E) s' = .ok (o, s3)) ↔
    ¬ Defect B k E := by
  obtain ⟨-, T, hT, -, hrep⟩ := isTop_of_build hinj hb
  obtain ⟨-, hn⟩ := height_eq_ok hrep hT.full hh
  constructor
  · rintro ⟨o, s2, hr, hall⟩ hd
    obtain ⟨s3, hs3⟩ := hall s1
    exact remove_of_defect hinj hE hT hrep hn hd hr hs3
  · exact remove_of_not_defect hinj hE hT hrep hn

theorem remove_build_leaf : ∃ o s2, remove (fun _ _ => false) (.leaf [([1], []), ([2], [])]) [1]
        (leafStore [([1], []), ([2], [])]) = .ok (o, s2) ∧
      ∀ s' : FreeStore, ∃ s3, build (fun _ _ => false)
        (OrdMap.erase [1] [([1], []), ([2], [])]) s' = .ok (o, s3) :=
  (remove_build_iff (s := MemoryStore.new) (h := 0) (E := [([1], []), ([2], [])])
    FreeDigest.ofNode_injective (by decide) rfl rfl [1]).mpr
      fun ⟨_, _, _, _, _, _, _, _, _, _, hk⟩ => Bool.noConfusion hk

/-- Ends a leaf at the keys `1` and `2`, and a node of level `1` at the key `2`. -/
def twoLevelBoundary (key : Bytes) (level : ℕ) : Bool :=
  (key == [1] && level == 0) || (key == [2] && decide (level ≤ 1))

def threeEntries : List (Bytes × Bytes) := [([1], []), ([2], []), ([3], [])]

def leafOf (key : UInt8) : FreeDigest := .leaf [([key], [])]

def openRoot : FreeDigest :=
  .internal [([1], .internal [([1], leafOf 1)]), ([3], .internal [([3], leafOf 3)])]

/-- The root that a build over the other two keys gives. -/
def mergedRoot : FreeDigest := .internal [([1], leafOf 1), ([3], leafOf 3)]

/-- Without the key `2`, its node ends in the key `1`, which is no boundary there; a build merges
it. -/
theorem remove_leaves_node_open :
    (build twoLevelBoundary threeEntries (MemoryStore.new : FreeStore) >>= fun r =>
      match r with
      | (some root, s) => do
        let h ← height s.readNode root
        let (o, _) ← remove twoLevelBoundary root [2] s
        .ok (h, o)
      | (none, _) => .ok (0, none)) = .ok (2, some openRoot) ∧
    (build twoLevelBoundary (OrdMap.erase [2] threeEntries) (MemoryStore.new : FreeStore)).map
      Prod.fst = .ok (some mergedRoot) ∧
    openRoot ≠ mergedRoot := by
  decide +kernel

end UldrenLoom.Prolly
