import UldrenLoom.Lib.LevelRoot

/-!
# Removals that leave a node open

The other direction of `edit_erase`: where a removal meets a `Defect`, the key before the removed
one ends a node of the result that the canonical tree does not end there.

* **`edit_erase_defect`**: a removal with a defect does not give up, and what it leads to is not the
  canonical tree.
-/

namespace LevelTree

open Chunk OrdMap List

variable {K V : Type} [Inhabited K] {B : K → ℕ → Bool}

/-! ## The ends of the nodes of a level -/

/-- Some node of level `j` ends in the key `a`. -/
def EndsNode (j : ℕ) (a : K) : (n : ℕ) → Tree K V n → Prop
  | 0, es => j = 0 ∧ maxKey 0 es = a
  | n + 1, ts => (j = n + 1 ∧ maxKey (n + 1) ts = a) ∨ ∃ t ∈ ts, EndsNode j a n t

variable {j : ℕ} {a : K} {n : ℕ} {t : Tree K V n} {ts : List (Tree K V n)}

theorem endsNode_of_mem (ht : t ∈ ts) (h : EndsNode j a n t) : EndsNode j a (n + 1) ts := .inr ⟨t, ht, h⟩

theorem endsNode_chunkTrees (ht : t ∈ ts) (h : EndsNode j a n t) :
    ∃ u ∈ chunkTrees B n ts, EndsNode j a (n + 1) u := by
  rw [← flatten_chunk (p := fun t => B (maxKey n t) (n + 1)) ts] at ht
  obtain ⟨u, hu, htu⟩ := mem_flatten.mp ht
  exact ⟨u, hu, endsNode_of_mem htu h⟩

/-- The nodes of a forest end in the last key or in a boundary of their level and all below. -/
theorem endsNode_forest : ∀ (n : ℕ) {E : List (K × V)} {t : Tree K V n}, t ∈ forest B n E →
    EndsNode j a n t → boundaryTo B j a = true ∨ lastKey E = some a := by
  have hcut : ∀ {n : ℕ} {E : List (K × V)} {t : Tree K V n}, t ∈ forest B n E →
      boundaryTo B n (maxKey n t) = true ∨ lastKey E = some (maxKey n t) := by
    intro n E t ht
    have hmem : maxKey n t ∈ cuts (boundaryTo B n) (E.map Prod.fst) := by
      rw [← maxKeys_forest]
      exact mem_map_of_mem ht
    have := mem_cuts hmem
    rwa [List.getLast?_map] at this
  intro n
  induction n with
  | zero =>
    rintro E t ht ⟨rfl, rfl⟩
    exact hcut ht
  | succ n ih =>
    rintro E ts hts (⟨rfl, rfl⟩ | ⟨t, ht, h⟩)
    · exact hcut hts
    · refine ih ?_ h
      rw [← flatten_chunk (p := fun t => B (maxKey n t) (n + 1)) (forest B n E)]
      exact mem_flatten.mpr ⟨ts, hts, ht⟩

theorem endsNode_raise {left : ℕ} {T : Top K V} (hr : raise B left n ts = some T) (ht : t ∈ ts)
    (h : EndsNode j a n t) : EndsNode j a T.1 T.2 := by
  refine raise_induction (P := fun n ts => ∀ t ∈ ts, EndsNode j a n t → EndsNode j a T.1 T.2)
    (fun t ht h => ?_) (fun _ ih t ht h => ?_) hr t ht h
  · obtain rfl := mem_singleton.mp ht
    exact h
  · obtain ⟨u, hu, hju⟩ := endsNode_chunkTrees ht h
    exact ih u hu hju

/-- Collapsing only drops nodes that end in the largest key. -/
theorem endsNode_collapse : ∀ (n : ℕ) {t : Tree K V n}, EndsNode j a n t →
    EndsNode j a (collapse n t).1 (collapse n t).2 ∨ maxKey n t = a
  | 0, _, h => .inl h
  | n + 1, ts, h => by
    by_cases h1 : ts.length = 1
    · obtain ⟨t, rfl⟩ := length_eq_one_iff.mp h1
      rcases h with ⟨-, h⟩ | ⟨u, hu, h⟩
      · exact .inr h
      · obtain rfl := mem_singleton.mp hu
        rw [collapse_singleton]
        exact endsNode_collapse n h
    · rw [collapse_of_length h1]
      exact .inl h

/-! ## Removal -/

section Removal

variable [LinearOrder K] {k : K} {n : ℕ}

omit [Inhabited K] [LinearOrder K] in
theorem contents_eq_singleton {ts : List (Tree K V n)} {e : K × V} (hf : ∀ t ∈ ts, Full n t)
    (h : contents n ts = [e]) : ∃ t, ts = [t] ∧ flatten n t = [e] := by
  cases ts with
  | nil => simp at h
  | cons t r =>
    rw [contents_cons] at h
    rcases append_eq_singleton_iff.mp h with ⟨h₁, -⟩ | ⟨ht, hr⟩
    · exact absurd h₁ (flatten_ne_nil n (hf t (by simp)))
    · have hrn : r = [] :=
        (contents_eq_nil fun u hu => flatten_ne_nil n (hf u (by simp [hu]))).mp hr
      exact ⟨t, by rw [hrn], ht⟩

theorem route_append {l : List (Tree K V n)} {t : Tree K V n} (r : List (Tree K V n))
    (hl : ∀ u ∈ l, maxKey n u < k) (ht : k ≤ maxKey n t) :
    route n k (l ++ t :: r) = some (l, t, r) := by
  induction l with
  | nil => exact if_pos (.inl ht)
  | cons u l ih =>
    have hu := hl u (by simp)
    rw [cons_append, route, if_neg (by simp [hu]), ih fun v hv => hl v (by simp [hv])]
    rfl

variable {x : V}

theorem edit_erase_singleton {x : V} : ∀ (n : ℕ) {t : Tree K V n} {last : Bool}, Full n t →
    flatten n t = [(k, x)] → edit B (erase k) k n t last = some []
  | 0, es, last, _, h => by
    obtain rfl : es = [(k, x)] := h
    have he : erase k [(k, x)] = [] := by simp [erase]
    rw [edit, he]
    rfl
  | n + 1, ts, last, ⟨hne, hf⟩, h => by
    obtain ⟨t, rfl, ht⟩ := contents_eq_singleton hf h
    have hroute : route n k [t] = some ([], t, []) := by simp [route]
    rw [edit, hroute]
    dsimp only
    rw [edit_erase_singleton n (hf t (by simp)) ht]
    rfl

omit [Inhabited K] in
theorem middle_of_bounds {A C L S R : List (K × V)} (hL : ∀ e ∈ L, e.1 < k)
    (hR : ∀ e ∈ R, k < e.1) (h : L ++ S ++ R = A ++ (k, x) :: C) :
    ∃ A' C', S = A' ++ (k, x) :: C' ∧ A = L ++ A' ∧ C = C' ++ R := by
  rw [append_assoc] at h
  have hnR : (k, x) ∉ R := fun hm => lt_irrefl _ (hR _ hm)
  have hnL : (k, x) ∉ L := fun hm => lt_irrefl _ (hL _ hm)
  obtain ⟨A', rfl, h₁⟩ : ∃ A', A = L ++ A' ∧ S ++ R = A' ++ (k, x) :: C := by
    rcases append_eq_append_iff.mp h with ⟨A', h₁, h2⟩ | ⟨C', h₁, h2⟩
    · exact ⟨A', h₁, h2⟩
    · cases C' with
      | nil => exact ⟨[], by simpa using h₁.symm, by simpa using h2.symm⟩
      | cons c C' =>
        obtain ⟨rfl, -⟩ := List.cons.inj h2
        exact absurd (h₁ ▸ by simp) hnL
  rcases append_eq_append_iff.mp h₁ with ⟨C', h2, h3⟩ | ⟨C', h2, h3⟩
  · exact absurd (by rw [h3]; simp) hnR
  · cases C' with
    | nil =>
      exact absurd (by rw [← nil_append R, ← h3]; simp) hnR
    | cons c C' =>
      cases h3
      exact ⟨A', C', h2, rfl, rfl⟩

theorem edit_erase_open {ts : List (Tree K V n)} (last : Bool) {A C : List (K × V)} {p : K × V}
    (hc : Canonical B (n + 1) [ts]) (hasc : Ascending (contents n ts))
    (hE : contents n ts = A ++ p :: (k, x) :: C) (hlow : ∀ i ≤ n, B p.1 i = true ∧ B k i = true)
    (hk : B k (n + 1) = true) :
    ∃ us, edit B (erase k) k (n + 1) ts last = some us ∧ ∃ u ∈ us, maxKey (n + 1) u = p.1 := by
  have hts : Canonical B n ts := canonical_node hc
  have hE' : contents n ts = (A ++ [p]) ++ ([(k, x)] ++ C) := by rw [hE]; simp
  have hcp : ClosedAt B n (A ++ [p]) := fun m hm i hi => by
    obtain rfl := Option.some.inj ((lastKey_concat A p).symm.trans hm)
    exact (hlow i hi).1
  have hck : ClosedAt B n [(k, x)] := fun m hm i hi => by
    obtain rfl := Option.some.inj ((lastKey_concat [] (k, x)).symm.trans hm)
    exact (hlow i hi).2
  obtain ⟨u, hu, hfu⟩ := contents_eq_singleton (full_forest (B := B) n [(k, x)])
    (contents_forest n [(k, x)])
  have hsplit : ts = forest B n (A ++ [p]) ++ u :: forest B n C := by
    rw [← hts, hE', forest_append hcp, forest_append hck, hu]
    rfl
  have huf : Full n u := full_forest (B := B) n [(k, x)] u (by rw [hu]; simp)
  have huk : maxKey n u = k := by
    have := lastKey_flatten n huf
    rw [hfu] at this
    exact (Option.some.inj this).symm
  have hlt : ∀ v ∈ forest B n (A ++ [p]), maxKey n v < k := by
    intro v hv
    obtain ⟨e, he, hek⟩ := exists_maxKey (full_forest (B := B) n (A ++ [p]) v hv)
    have hmem : e ∈ A ++ [p] := by
      rw [← contents_forest (B := B) n (A ++ [p])]
      exact mem_flatMap.mpr ⟨v, hv, he⟩
    rw [hE'] at hasc
    rw [← hek]
    exact (pairwise_append.mp hasc).2.2 e hmem (k, x) (by simp)
  -- the removed key is a boundary of the node's level, so nothing follows it in the node
  have hnil : forest B n C = [] := by
    by_contra hne
    have hrun := ((canonical_succ.mp hc).2.run (mem_singleton_self ts)).2 u (by
      rw [hsplit, dropLast_append_of_ne_nil (cons_ne_nil _ _), dropLast_cons_of_ne_nil hne]
      simp)
    dsimp only at hrun
    rw [huk, hk] at hrun
    exact Bool.noConfusion hrun
  rw [hnil] at hsplit
  subst hsplit
  refine ⟨forest B (n + 1) (A ++ [p]), ?_, ?_⟩
  · rw [edit, route_append [] hlt huk.ge]
    dsimp only
    rw [edit_erase_singleton n huf hfu, Option.map_some, append_nil, append_nil, forest]
  · have hne : forest B (n + 1) (A ++ [p]) ≠ [] := fun he => by
      simpa using forest_eq_nil.mp he
    have hl := lastKey_contents (full_forest (n + 1) _ _ (getLast_mem hne))
      (List.getLast?_eq_getLast_of_ne_nil hne)
    rw [contents_forest, lastKey_concat] at hl
    exact ⟨_, getLast_mem hne, (Option.some.inj hl).symm⟩

theorem edit_erase_endsNode {p : K × V} {x : V} (hj : 0 < j)
    (hlow : ∀ i < j, B p.1 i = true ∧ B k i = true) (hp : B p.1 j = false) (hk : B k j = true) :
    ∀ (n : ℕ) {t : Tree K V n} (last : Bool) {A C : List (K × V)}, j ≤ n → Canonical B n [t] →
      Ascending (flatten n t) → flatten n t = A ++ p :: (k, x) :: C →
        ∃ us, edit B (erase k) k n t last = some us ∧ ∃ u ∈ us, EndsNode j p.1 n u
  | 0, _, _, _, _, hjn, _, _, _ => absurd hj (by omega)
  | n + 1, ts, last, A, C, hjn, hc, hasc, hE => by
    rcases Nat.eq_or_lt_of_le hjn with rfl | hlt
    · obtain ⟨us, he, u, hu, hm⟩ := edit_erase_open last hc hasc hE
        (fun i hi => hlow i (by omega)) hk
      exact ⟨us, he, u, hu, .inl ⟨rfl, hm⟩⟩
    · have hts : Canonical B n ts := canonical_node hc
      have hfull : Full (n + 1) ts := hc.full ts (by simp)
      obtain ⟨l, t, r, hr⟩ := exists_route hfull.1 k
      obtain ⟨rfl, hl, ht⟩ := route_spec hr
      obtain ⟨hlt', hgt⟩ := route_bounds hfull.2 hasc hl ht
      have htm : t ∈ l ++ t :: r := by simp
      rw [flatten_succ, contents_append, contents_cons, ← append_assoc,
        show A ++ p :: (k, x) :: C = (A ++ [p]) ++ (k, x) :: C by simp] at hE
      obtain ⟨A', C', hft, hA, -⟩ := middle_of_bounds hlt' hgt hE
      -- the child before would be closed at level `j`, so the key before `k` is in the same child
      obtain ⟨A'', rfl⟩ : ∃ A'', A' = A'' ++ [p] := by
        rcases eq_nil_or_concat A' with rfl | ⟨A'', q, rfl⟩
        · have hcl := (canonical_append hts).2.2 (cons_ne_nil t r)
          rw [append_nil] at hA
          rw [← hA] at hcl
          have := hcl p.1 (lastKey_concat A p) j (by omega)
          rw [hp] at this
          exact Bool.noConfusion this
        · rw [concat_eq_append, ← append_assoc] at hA
          obtain ⟨-, hq⟩ := append_inj' hA rfl
          exact ⟨A'', by rw [concat_eq_append, hq]⟩
      rw [append_assoc] at hft
      obtain ⟨sub, hsub, u, hu, hju⟩ := edit_erase_endsNode hj hlow hp hk n
        (last && r.isEmpty) (by omega) (hts.of_mem htm) (ascending_flatten hasc htm) hft
      refine ⟨chunkTrees B n (l ++ sub ++ r), ?_, endsNode_chunkTrees (by simp [hu]) hju⟩
      rw [edit, hr]
      dsimp only
      rw [hsub, Option.map_some]

/-- **A removal with a defect does not lead to the canonical tree**: the key before the removed one
ends a node of the level of the defect. -/
theorem edit_erase_defect {t : Tree K V n} {E : List (K × V)} (hE : Ascending E)
    (ht : IsTop B E ⟨n, t⟩) (hd : Defect B k E) :
    ∃ us, edit B (erase k) k n t true = some us ∧
      ∀ left T, raise B left n us = some T → ¬ IsTop B (erase k E) (collapse T.1 T.2) := by
  obtain ⟨A, p, x, C, rfl, hC, j, hj, hlow, hp, hk⟩ := hd
  have hsplit : A ++ p :: (k, x) :: C = (A ++ [p, (k, x)]) ++ C := by simp
  -- the level of the defect has more than one node, so it is below the root
  have hjn : j ≤ n := by
    by_contra hlt
    have hcl : ClosedAt B j (A ++ [p, (k, x)]) := fun m hm i hi => by
      obtain rfl : k = m := by simpa [lastKey] using hm
      rcases Nat.eq_or_lt_of_le hi with rfl | hi
      · exact hk
      · exact (hlow i hi).2
    have h₁ : (forest B j (A ++ [p, (k, x)])).length ≠ 0 := fun h => by
      simp [forest_eq_nil] at h
    have h2 : (forest B j C).length ≠ 0 := fun h =>
      hC (forest_eq_nil.mp (length_eq_zero_iff.mp h))
    have hle := length_forest_le (B := B) (show n ≤ j by omega) (A ++ p :: (k, x) :: C)
    rw [ht.1, hsplit, forest_append hcl, length_append, length_singleton] at hle
    omega
  have hft : flatten n t = A ++ p :: (k, x) :: C := ht.flatten_eq
  obtain ⟨us, hus, u, hu, hju⟩ := edit_erase_endsNode hj hlow hp hk n true hjn ht.canonical
    (hft ▸ hE) hft
  obtain ⟨hcont, hfull⟩ := edit_contents (local_erase k) n ht.full (hft ▸ hE) hus
  rw [hft] at hcont
  refine ⟨us, hus, fun left T hT htop => ?_⟩
  -- the key before the removed one is neither the last key nor a boundary of level `j`
  have hlast : lastKey (erase k (A ++ p :: (k, x) :: C)) ≠ some p.1 := by
    have hsort := ascending_erase hE k
    have he : erase k (A ++ p :: (k, x) :: C) = (A ++ [p]) ++ C := by
      rw [show A ++ p :: (k, x) :: C = (A ++ [p]) ++ (k, x) :: C by simp] at hE ⊢
      exact erase_middle hE
    rw [he] at hsort ⊢
    rw [lastKey_append hC]
    intro h
    obtain ⟨e, hem, hek⟩ := Option.map_eq_some_iff.mp h
    exact absurd hek ((pairwise_append.mp hsort).2.2 p (by simp) e (mem_of_getLast? hem)).ne'
  obtain ⟨hTc, hTf⟩ := raise_contents hT hfull
  rcases endsNode_collapse T.1 (endsNode_raise hT hu hju) with h | h
  · rcases endsNode_forest _ (htop.1 ▸ mem_singleton_self _) h with hb | hb
    · have := boundaryTo_iff.mp hb j le_rfl
      rw [hp] at this
      exact Bool.noConfusion this
    · exact hlast hb
  · have := lastKey_flatten T.1 hTf
    rw [hTc, hcont, h] at this
    exact hlast this

end Removal

end LevelTree
