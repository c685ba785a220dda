import UldrenLoom.Prolly.History

/-!
# Differences of two trees

* **`diff_spec`**: the difference of two search trees lists the keys whose values differ.
-/

namespace UldrenLoom.Prolly

open ByteString Fallible LevelTree OrdMap

variable {D : Type} (read : D → Result (Node D))

/-! ## Reachability -/

/-- The node at `d` refers to `c`. -/
def Child (d c : D) : Prop := ∃ ch, read d = .ok (.internal ch) ∧ c ∈ ch.map Prod.snd

/-- `x` is at or below `d`. -/
def Reaches (d x : D) : Prop := Relation.ReflTransGen (Child read) d x

variable {read}

theorem reach_leaf {d : D} {es : List (Bytes × Bytes)} (h : read d = .ok (.leaf es)) (x : D) :
    Reaches read d x ↔ x = d := by
  rw [Reaches, Relation.ReflTransGen.cases_head_iff]
  constructor
  · rintro (rfl | ⟨c, ⟨ch, hd, -⟩, -⟩)
    · rfl
    · rw [h] at hd
      exact absurd hd (by simp)
  · exact fun hx => .inl hx.symm

theorem reach_internal {d : D} {ch : ChildRun D} (h : read d = .ok (.internal ch)) (x : D) :
    Reaches read d x ↔ x = d ∨ ∃ c ∈ ch, Reaches read c.2 x := by
  rw [Reaches, Relation.ReflTransGen.cases_head_iff]
  constructor
  · rintro (rfl | ⟨c, ⟨ch', hd, hc⟩, hx⟩)
    · exact .inl rfl
    · obtain rfl := Node.internal.inj (Except.ok.inj (h.symm.trans hd))
      obtain ⟨c', hc', rfl⟩ := List.mem_map.mp hc
      exact .inr ⟨c', hc', hx⟩
  · rintro (rfl | ⟨c, hc, hx⟩)
    · exact .inl rfl
    · exact .inr ⟨c.2, ⟨ch, h, List.mem_map_of_mem hc⟩, hx⟩

/-- The leaf at `L` holds the entry. -/
def LeafHas (read : D → Result (Node D)) (L : D) (e : Bytes × Bytes) : Prop :=
  ∃ es, read L = .ok (.leaf es) ∧ e ∈ es

theorem mem_flatten_rep : ∀ {n : ℕ} {t : Tree Bytes Bytes n} {d : D}, Rep read n t d →
    ∀ e, e ∈ flatten n t ↔ ∃ L, Reaches read d L ∧ LeafHas read L e
  | 0, es, d, h, e => by
    have hd : read d = .ok (.leaf es) := h
    simp only [reach_leaf hd, exists_eq_left, LeafHas, hd, Except.ok.injEq, Node.leaf.injEq,
      exists_eq_left', flatten_zero]
  | n + 1, ts, d, ⟨ch, hd, hch⟩, e => by
    have hno : ¬ LeafHas read d e := fun ⟨es, h, _⟩ => absurd (hd.symm.trans h) (by simp)
    have hmem : e ∈ flatten (n + 1) ts ↔ ∃ c ∈ ch, ∃ L, Reaches read c.2 L ∧ LeafHas read L e := by
      clear hd hno
      induction hch with
      | nil => simp
      | cons hc _ ih =>
        rw [flatten_succ] at ih
        rw [flatten_succ, contents_cons, List.mem_append, mem_flatten_rep hc.2 e, ih,
          List.exists_mem_cons_iff]
    rw [hmem]
    constructor
    · rintro ⟨c, hc, L, hL, he⟩
      exact ⟨L, (reach_internal hd L).mpr (.inr ⟨c, hc, hL⟩), he⟩
    · rintro ⟨L, hL, he⟩
      rcases (reach_internal hd L).mp hL with rfl | ⟨c, hc, hL⟩
      · exact absurd he hno
      · exact ⟨c, hc, L, hL, he⟩

theorem leaf_unique : ∀ {n : ℕ} {t : Tree Bytes Bytes n} {d : D}, Rep read n t d →
    Ascending (flatten n t) → ∀ {L L' : D} {e e' : Bytes × Bytes}, Reaches read d L →
      Reaches read d L' → LeafHas read L e → LeafHas read L' e' → e.1 = e'.1 → L = L'
  | 0, es, d, h, _, L, L', e, e', hL, hL', _, _, _ => by
    rw [(reach_leaf h L).mp hL, (reach_leaf h L').mp hL']
  | n + 1, ts, d, ⟨ch, hd, hch⟩, hasc, L, L', e, e', hL, hL', he, he', hk => by
    have hno : ∀ e, ¬ LeafHas read d e := fun e ⟨es, h, _⟩ => absurd (hd.symm.trans h) (by simp)
    rcases (reach_internal hd L).mp hL with rfl | ⟨c, hc, hL⟩
    · exact absurd he (hno e)
    rcases (reach_internal hd L').mp hL' with rfl | ⟨c', hc', hL'⟩
    · exact absurd he' (hno e')
    clear hd hno
    induction hch with
    | nil => simp at hc
    | @cons t c0 ts ch hc0 hch ih =>
      rw [flatten_succ, contents_cons] at hasc
      obtain ⟨hat, har, hlt⟩ := List.pairwise_append.mp hasc
      -- entries of the first child and of the others have different keys
      have hfirst : ∀ {L e}, Reaches read c0.2 L → LeafHas read L e → e ∈ flatten n t :=
        fun hL he => (mem_flatten_rep hc0.2 _).mpr ⟨_, hL, he⟩
      have hrest : ∀ {c L e}, c ∈ ch → Reaches read c.2 L → LeafHas read L e → e ∈ contents n ts := by
        intro c L e hc hL he
        obtain ⟨i, hi, rfl⟩ := List.getElem_of_mem hc
        have hi' : i < ts.length := hch.length_eq ▸ hi
        have hrep := (List.Forall₂.get hch hi' hi).2
        exact List.mem_flatMap.mpr ⟨_, List.get_mem ts ⟨i, hi'⟩, (mem_flatten_rep hrep _).mpr ⟨L, hL, he⟩⟩
      rcases List.mem_cons.mp hc with hc1 | hc1
      · subst hc1
        rcases List.mem_cons.mp hc' with hc2 | hc2
        · subst hc2
          exact leaf_unique hc0.2 hat hL hL' he he' hk
        · exact absurd hk (hlt e (hfirst hL he) e' (hrest hc2 hL' he')).ne
      · rcases List.mem_cons.mp hc' with hc2 | hc2
        · subst hc2
          exact absurd hk.symm (hlt e' (hfirst hL' he') e (hrest hc1 hL he)).ne
        · exact ih har hc1 hc2

/-! ## The walk -/

section Walk

variable [DecidableEq D]

/-- The walk over a tree visits what is reachable, and then what is left on the stack. -/
theorem walk_rep : ∀ {n : ℕ} {t : Tree Bytes Bytes n} {d : D} (depth : ℕ) (stack : List (D × ℕ)),
    Rep read n t d → depth + n ≤ maxDepth → ∃ ns, (∀ x, x ∈ ns ↔ Reaches read d x) ∧
      walk read [] ((d, depth) :: stack) =
        (walk read [] stack).map fun r => ⟨ns ++ r.nodes, flatten n t ++ r.leafEntries⟩
  | 0, es, d, depth, stack, h, hd => by
    have hr : read d = .ok (.leaf es) := h
    refine ⟨[d], fun x => by rw [List.mem_singleton, reach_leaf hr], ?_⟩
    rw [walk, dif_neg (by omega), if_neg (by simp), hr]
    rfl
  | n + 1, ts, d, depth, stack, ⟨ch, hr, hch⟩, hd => by
    obtain ⟨ns, hns, hwalk⟩ : ∃ ns, (∀ x, x ∈ ns ↔ ∃ c ∈ ch, Reaches read c.2 x) ∧
        walk read [] (below depth ch ++ stack) =
          (walk read [] stack).map fun r => ⟨ns ++ r.nodes, contents n ts ++ r.leafEntries⟩ := by
      clear hr
      induction hch with
      | nil =>
        refine ⟨[], by simp, ?_⟩
        change walk read [] stack = _
        cases walk read [] stack <;> rfl
      | @cons t c ts ch hc _ ih =>
        obtain ⟨ns, hns, hw⟩ := ih
        obtain ⟨ms, hms, hw'⟩ := walk_rep (depth + 1) (below depth ch ++ stack) hc.2 (by omega)
        refine ⟨ms ++ ns, fun x => ?_, ?_⟩
        · rw [List.mem_append, hms, hns, List.exists_mem_cons_iff]
        · change walk read [] ((c.2, depth + 1) :: (below depth ch ++ stack)) = _
          rw [hw', hw]
          cases walk read [] stack with
          | error e => rfl
          | ok r => simp [Except.map]
    refine ⟨d :: ns, fun x => by rw [List.mem_cons, hns, reach_internal hr], ?_⟩
    rw [walk, dif_neg (by omega), if_neg (by simp), hr]
    dsimp only
    rw [hwalk]
    cases walk read [] stack <;> rfl

/-- **The nodes of a tree are what its root reaches.** -/
theorem reachableNodes_rep {n : ℕ} {t : Tree Bytes Bytes n} {d : D} (h : Rep read n t d)
    (hn : n ≤ maxDepth) :
    ∃ ns, reachableNodes read d = .ok ns ∧ ∀ x, x ∈ ns ↔ Reaches read d x := by
  obtain ⟨ns, hns, hw⟩ := walk_rep 0 [] h (by omega)
  refine ⟨ns, ?_, hns⟩
  rw [reachableNodes, reachableWithLeaves, hw, walk]
  simp [Except.map]

/-- **Pruning `held` leaves the entries of the leaves that are not in it.** -/
theorem changedEntries_rep {held : List D} (hheld : ∀ x ∈ held, ∀ y, Reaches read x y → y ∈ held) :
    ∀ {n : ℕ} {t : Tree Bytes Bytes n} {d : D} (left : ℕ), n < left → Rep read n t d →
      ∃ es, changedEntries read held left d = .ok es ∧ es.Sublist (flatten n t) ∧
        ∀ e, e ∈ es ↔ ∃ L, Reaches read d L ∧ L ∉ held ∧ LeafHas read L e := by
  have hpruned {d : D} (hd : d ∈ held) (e : Bytes × Bytes) :
      e ∈ [] ↔ ∃ L, Reaches read d L ∧ L ∉ held ∧ LeafHas read L e := by
    simp only [List.not_mem_nil, false_iff]
    rintro ⟨L, hL, hnot, -⟩
    exact hnot (hheld d hd L hL)
  intro n
  induction n with
  | zero =>
    intro es d left hlt h
    obtain ⟨left, rfl⟩ := Nat.exists_eq_succ_of_ne_zero (Nat.pos_iff_ne_zero.mp hlt)
    have hr : read d = .ok (.leaf es) := h
    rw [changedEntries]
    by_cases hd : d ∈ held
    · exact ⟨[], if_pos hd, List.nil_sublist _, hpruned hd⟩
    · refine ⟨es, by rw [if_neg hd, hr]; rfl, List.Sublist.refl _, fun e => ?_⟩
      have := mem_flatten_rep h e
      rw [flatten_zero] at this
      rw [this]
      refine exists_congr fun L => ?_
      rw [reach_leaf hr]
      constructor
      · rintro ⟨rfl, he⟩
        exact ⟨rfl, hd, he⟩
      · rintro ⟨rfl, -, he⟩
        exact ⟨rfl, he⟩
  | succ n ih =>
    rintro ts d left hlt ⟨ch, hr, hch⟩
    obtain ⟨left, rfl⟩ := Nat.exists_eq_succ_of_ne_zero (Nat.ne_zero_of_lt hlt)
    rw [changedEntries]
    by_cases hd : d ∈ held
    · exact ⟨[], if_pos hd, List.nil_sublist _, hpruned hd⟩
    · obtain ⟨es, hes, hsub, hmem⟩ := concatMap_spec (g := flatten n)
        (f := fun c : Bytes × D => changedEntries read held left c.2)
        (P := fun c e => ∃ L, Reaches read c.2 L ∧ L ∉ held ∧ LeafHas read L e)
        (hch.imp fun t c hc => ih left (Nat.lt_of_succ_lt_succ hlt) hc.2)
      refine ⟨es, by rw [if_neg hd, hr, ok_bind]; exact hes, hsub, fun e => ?_⟩
      rw [hmem]
      constructor
      · rintro ⟨c, hc, L, hL, hnot, he⟩
        exact ⟨L, (reach_internal hr L).mpr (.inr ⟨c, hc, hL⟩), hnot, he⟩
      · rintro ⟨L, hL, hnot, he⟩
        rcases (reach_internal hr L).mp hL with rfl | ⟨c, hc, hL⟩
        · obtain ⟨es, hleaf, -⟩ := he
          exact absurd (hr.symm.trans hleaf) (by simp)
        · exact ⟨c, hc, L, hL, hnot, he⟩

end Walk

/-! ## The difference -/

theorem diffMaps_ascending (am bm : List (Bytes × Bytes)) :
    (diffMaps am bm).Pairwise fun a b => a.1 < b.1 := by
  have hk := ascending_insertAll ((am ++ bm).map fun e => (e.1, ())) List.Pairwise.nil
  refine List.Pairwise.filterMap _ (fun a a' haa' b hb b' hb' => ?_) hk
  split_ifs at hb hb'
  rw [← Option.some.inj hb, ← Option.some.inj hb']
  exact haa'

theorem mem_diffMaps {am bm : List (Bytes × Bytes)} {k : Bytes} {x y : Option Bytes} :
    (k, x, y) ∈ diffMaps am bm ↔ OrdMap.get k am = x ∧ OrdMap.get k bm = y ∧ x ≠ y := by
  have hkeys := mem_keys_insertAll ((am ++ bm).map fun e => (e.1, ())) [] k
  rw [List.map_map] at hkeys
  rw [diffMaps, List.mem_filterMap]
  constructor
  · rintro ⟨⟨k', u⟩, -, h⟩
    split_ifs at h with heq
    obtain ⟨rfl, hxy⟩ := Prod.mk.inj (Option.some.inj h)
    cases hxy
    exact ⟨rfl, rfl, heq⟩
  · rintro ⟨rfl, rfl, hne⟩
    have hmem : k ∈ (am ++ bm).map Prod.fst := by
      rw [List.map_append, List.mem_append, mem_keys, mem_keys]
      by_contra h
      rw [not_or, not_not, not_not] at h
      exact hne (h.1.trans h.2.symm)
    obtain ⟨e, he, hek⟩ := List.mem_map.mp (hkeys.mpr (.inl hmem))
    refine ⟨e, he, ?_⟩
    rw [hek, if_neg hne]

variable [DecidableEq D]

/-- The digests at or below an optional root. -/
def ReachesFrom (read : D → Result (Node D)) (root : Option D) (x : D) : Prop :=
  ∃ r ∈ root, Reaches read r x

omit [DecidableEq D] in
theorem ReachesFrom.trans {root : Option D} {x y : D} (h : ReachesFrom read root x)
    (hxy : Reaches read x y) : ReachesFrom read root y := by
  obtain ⟨r, hr, hx⟩ := h
  exact ⟨r, hr, Relation.ReflTransGen.trans hx hxy⟩

theorem represents_facts {root : Option D} {E : List (Bytes × Bytes)} (h : Represents read root E)
    {E' : List (Bytes × Bytes)} (hE : entriesOf read root = .ok E') :
    E' = E ∧
    (∃ ns, nodesOf read root = .ok ns ∧ ∀ x, x ∈ ns ↔ ReachesFrom read root x) ∧
    (∀ held : List D, (∀ x ∈ held, ∀ y, Reaches read x y → y ∈ held) →
      ∃ es, changedOf read held root = .ok es ∧ es.Sublist E ∧
        ∀ e, e ∈ es ↔ ∃ L, ReachesFrom read root L ∧ L ∉ held ∧ LeafHas read L e) ∧
    (∀ e, e ∈ E ↔ ∃ L, ReachesFrom read root L ∧ LeafHas read L e) ∧
    ∀ L L' e e', ReachesFrom read root L → ReachesFrom read root L' → LeafHas read L e →
      LeafHas read L' e' → e.1 = e'.1 → L = L' := by
  cases root with
  | none =>
    obtain rfl : E = [] := h
    have hno : ∀ x, ¬ ReachesFrom read none x := fun x ⟨r, hr, _⟩ => by simp at hr
    refine ⟨(Except.ok.inj hE).symm, ⟨[], rfl, fun x => by simp [hno x]⟩,
      fun held _ => ⟨[], rfl, List.Sublist.slnil, fun e => by simp [hno]⟩,
      fun e => by simp [hno], fun L _ _ _ hL => absurd hL (hno L)⟩
  | some d =>
    obtain ⟨n, t, hrep, hf, rfl, hasc⟩ := h
    have hfrom : ∀ x, ReachesFrom read (some d) x ↔ Reaches read d x := by
      intro x
      constructor
      · rintro ⟨r, hr, hx⟩
        exact Option.some.inj hr ▸ hx
      · exact fun hx => ⟨d, rfl, hx⟩
    have hn := le_maxDepth_of_entries hrep hf hE
    rw [entriesOf, entries_rep hrep hn] at hE
    simp only [hfrom]
    exact ⟨(Except.ok.inj hE).symm, reachableNodes_rep hrep hn,
      fun held hheld => changedEntries_rep hheld (maxDepth + 1) (by omega) hrep,
      mem_flatten_rep hrep, fun _ _ _ _ => leaf_unique hrep hasc⟩

omit [DecidableEq D] in
theorem get_changed {E es : List (Bytes × Bytes)} {root other : Option D} (hE : Ascending E)
    (hsub : es.Sublist E)
    (hes : ∀ e, e ∈ es ↔ ∃ L, ReachesFrom read root L ∧ ¬ ReachesFrom read other L ∧ LeafHas read L e)
    (hmem : ∀ e, e ∈ E ↔ ∃ L, ReachesFrom read root L ∧ LeafHas read L e)
    (huniq : ∀ L L' e e', ReachesFrom read root L → ReachesFrom read root L' → LeafHas read L e →
      LeafHas read L' e' → e.1 = e'.1 → L = L') (k : Bytes) :
    (∀ L e, ReachesFrom read root L → ReachesFrom read other L → LeafHas read L e → e.1 = k →
      OrdMap.get k E = some e.2 ∧ OrdMap.get k es = none) ∧
    ((∀ L e, ReachesFrom read root L → ReachesFrom read other L → LeafHas read L e → e.1 ≠ k) →
      OrdMap.get k es = OrdMap.get k E) := by
  have hes' : Ascending es := List.Pairwise.sublist hsub hE
  constructor
  · rintro L e hL hL' he rfl
    refine ⟨(get_eq_some hE).mpr ((hmem _).mpr ⟨L, hL, he⟩), get_eq_none.mpr fun e' he' hk => ?_⟩
    obtain ⟨M, hM, hnot, heM⟩ := (hes e').mp he'
    exact hnot (huniq L M e e' hL hM he heM hk.symm ▸ hL')
  · intro hno
    refine Option.ext fun v => ?_
    rw [get_eq_some hes', get_eq_some hE, hes, hmem]
    constructor
    · rintro ⟨L, hL, -, he⟩
      exact ⟨L, hL, he⟩
    · rintro ⟨L, hL, he⟩
      exact ⟨L, hL, fun hL' => hno L (k, v) hL hL' he rfl, he⟩

theorem diff_rep {a b : Option D} {Ea Eb : List (Bytes × Bytes)} (ha : Represents read a Ea)
    (hb : Represents read b Eb) (hEa : entriesOf read a = .ok Ea)
    (hEb : entriesOf read b = .ok Eb) :
    ∃ out, diff read a b = .ok out ∧ out.Pairwise (fun x y => x.1 < y.1) ∧
      ∀ k x y, (k, x, y) ∈ out ↔ OrdMap.get k Ea = x ∧ OrdMap.get k Eb = y ∧ x ≠ y := by
  obtain ⟨-, ⟨na, hna, hnam⟩, hca, hma, hua⟩ := represents_facts ha hEa
  obtain ⟨-, ⟨nb, hnb, hnbm⟩, hcb, hmb, hub⟩ := represents_facts hb hEb
  obtain ⟨am, ham, hsa, hama⟩ := hca nb fun x hx y hy =>
    (hnbm y).mpr (((hnbm x).mp hx).trans hy)
  obtain ⟨bm, hbm, hsb, hbmb⟩ := hcb na fun x hx y hy =>
    (hnam y).mpr (((hnam x).mp hx).trans hy)
  have hasc := ha.ascending
  have hbsc := hb.ascending
  have ham' : insertAll am [] = am :=
    insertAll_of_perm (List.Pairwise.sublist hsa hasc) (List.Perm.refl am)
  have hbm' : insertAll bm [] = bm :=
    insertAll_of_perm (List.Pairwise.sublist hsb hbsc) (List.Perm.refl bm)
  refine ⟨diffMaps am bm, ?_, diffMaps_ascending am bm, fun k x y => ?_⟩
  · rw [diff, hna, ok_bind, hnb, ok_bind, ham, ok_bind, hbm, ok_bind, ham', hbm']
  · rw [mem_diffMaps]
    simp only [hnbm] at hama
    simp only [hnam] at hbmb
    obtain ⟨hga, hga'⟩ := get_changed hasc hsa hama hma hua k
    obtain ⟨hgb, hgb'⟩ := get_changed hbsc hsb hbmb hmb hub k
    by_cases hshared : ∃ L e, ReachesFrom read a L ∧ ReachesFrom read b L ∧ LeafHas read L e ∧ e.1 = k
    · -- a shared leaf holds the key: it is pruned on both sides, and the values agree
      obtain ⟨L, e, hLa, hLb, he, hk⟩ := hshared
      obtain ⟨h1, h2⟩ := hga L e hLa hLb he hk
      obtain ⟨h3, h4⟩ := hgb L e hLb hLa he hk
      rw [h1, h2, h3, h4]
      constructor
      · rintro ⟨rfl, rfl, hne⟩
        exact absurd rfl hne
      · rintro ⟨rfl, rfl, hne⟩
        exact absurd rfl hne
    · rw [hga' fun L e hLa hLb he hk => hshared ⟨L, e, hLa, hLb, he, hk⟩,
        hgb' fun L e hLb hLa he hk => hshared ⟨L, e, hLa, hLb, he, hk⟩]

/-- **The difference of two search trees** lists, in ascending order, the keys whose values
differ. -/
theorem diff_spec {a b : Option D} {Ea Eb : List (Bytes × Bytes)} (ha : ∃ E, Represents read a E)
    (hb : ∃ E, Represents read b E) (hEa : entriesOf read a = .ok Ea)
    (hEb : entriesOf read b = .ok Eb) :
    ∃ out, diff read a b = .ok out ∧ out.Pairwise (fun x y => x.1 < y.1) ∧
      ∀ k x y, (k, x, y) ∈ out ↔ OrdMap.get k Ea = x ∧ OrdMap.get k Eb = y ∧ x ≠ y := by
  obtain ⟨Ea', ha⟩ := ha
  obtain ⟨Eb', hb⟩ := hb
  obtain ⟨rfl, -⟩ := represents_facts ha hEa
  obtain ⟨rfl, -⟩ := represents_facts hb hEb
  exact diff_rep ha hb hEa hEb

/-- A tree, and the tree with the key `4` added: they share their first leaf. -/
def bothTrees : FreeStore :=
  putTwoLeaves [4] [([3], []), ([4], [7])] (putTwoLeaves [3] [([3], [])] .new)

theorem diff_spec_twoLeaves : ∃ out, diff bothTrees.readNode
      (some (twoLeaves [3] [([3], [])])) (some (twoLeaves [4] [([3], []), ([4], [7])])) = .ok out ∧
    ([4], none, some [7]) ∈ out ∧ ∀ x y, ([1], x, y) ∉ out := by
  have hbefore : Represents bothTrees.readNode (some (twoLeaves [3] [([3], [])]))
      [([1], []), ([2], []), ([3], [])] :=
    ⟨1, [[([1], []), ([2], [])], [([3], [])]], ⟨_, rfl, .cons ⟨rfl, rfl⟩ (.cons ⟨rfl, rfl⟩ .nil)⟩,
      by simp [Full], rfl, by decide⟩
  have hafter : Represents bothTrees.readNode (some (twoLeaves [4] [([3], []), ([4], [7])]))
      [([1], []), ([2], []), ([3], []), ([4], [7])] :=
    ⟨1, [[([1], []), ([2], [])], [([3], []), ([4], [7])]],
      ⟨_, rfl, .cons ⟨rfl, rfl⟩ (.cons ⟨rfl, rfl⟩ .nil)⟩, by simp [Full], rfl, by decide⟩
  obtain ⟨out, hout, -, hmem⟩ := diff_spec ⟨_, hbefore⟩ ⟨_, hafter⟩ rfl rfl
  refine ⟨out, hout, (hmem _ _ _).mpr (by decide), fun x y h => ?_⟩
  obtain ⟨rfl, rfl, hne⟩ := (hmem _ _ _).mp h
  exact hne (by decide)

end UldrenLoom.Prolly
