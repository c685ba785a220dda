import UldrenLoom.Lib.LevelTree

/-!
# Editing one leaf of a level tree

An edit descends to the leaf of a key, changes its entries, and cuts the leaf and the nodes above it
anew. It gives up where the changed leaf is open and another leaf follows.

* **`edit_contents`**: an edit changes the entries by `f` and keeps the nodes full.
* **`edit_insert`**: on a canonical tree an insertion never gives up, and its result is canonical.
* **`edit_erase`**: without a defect the result of a removal is canonical.
-/

set_option linter.unusedSectionVars false

namespace LevelTree

open Chunk OrdMap Option

variable {K V : Type} [LinearOrder K] [Inhabited K] (B : K → ℕ → Bool)

/-! ## Definitions -/

/-- Split a list of trees at the first one that reaches the key, or at the last one. -/
def route (n : ℕ) (k : K) :
    List (Tree K V n) → Option (List (Tree K V n) × Tree K V n × List (Tree K V n))
  | [] => none
  | t :: ts =>
    if k ≤ maxKey n t ∨ ts.isEmpty then some ([], t, ts)
    else (route n k ts).map fun s => (t :: s.1, s.2)

/-- The entries end in a key that is no boundary of the leaf level. -/
def isOpen (es : List (K × V)) : Bool := (lastKey es).any fun k => !B k 0

/-- The nodes that replace a tree when the leaf of `k` is changed by `f`; the last leaf may be
open. -/
def edit (f : List (K × V) → List (K × V)) (k : K) :
    (n : ℕ) → Tree K V n → Bool → Option (List (Tree K V n))
  | 0, es, last =>
    if isOpen B (f es) && !last then none else some (chunk (fun e => B e.1 0) (f es))
  | n + 1, ts, last =>
    match route n k ts with
    | none => none
    | some (l, t, r) =>
      (edit f k n t (last && r.isEmpty)).map fun sub => chunkTrees B n (l ++ sub ++ r)

/-- The change leaves everything on either side of `k` alone. -/
def Local (f : List (K × V) → List (K × V)) (k : K) : Prop :=
  ∀ A S C, (∀ a ∈ A, a.1 < k) → (∀ c ∈ C, k < c.1) → f (A ++ S ++ C) = A ++ f S ++ C

/-! ## The descent -/

variable {n : ℕ} {ts l r : List (Tree K V n)}

theorem exists_route (h : ts ≠ []) (k : K) : ∃ l t r, route n k ts = some (l, t, r) := by
  induction ts with
  | nil => exact absurd rfl h
  | cons t ts ih =>
    rw [route]
    split_ifs with hk
    · exact ⟨[], t, ts, rfl⟩
    · obtain ⟨l, u, r, hr⟩ := ih fun hn => hk (.inr (by simp [hn]))
      exact ⟨t :: l, u, r, by rw [hr]; rfl⟩

variable {t : Tree K V n}

theorem route_spec {k : K} (h : route n k ts = some (l, t, r)) :
    ts = l ++ t :: r ∧ (∀ u ∈ l, maxKey n u < k) ∧ (k ≤ maxKey n t ∨ r = []) := by
  induction ts generalizing l with
  | nil => simp [route] at h
  | cons u ts ih =>
    rw [route] at h
    split_ifs at h with hk
    · obtain ⟨rfl, htr⟩ := Prod.mk.inj (Option.some.inj h)
      cases htr
      exact ⟨rfl, by simp, hk.imp_right List.isEmpty_iff.mp⟩
    · obtain ⟨⟨l', s⟩, hs, he⟩ := map_eq_some_iff.mp h
      cases he
      obtain ⟨rfl, hl, ht⟩ := ih hs
      refine ⟨rfl, fun v hv => ?_, ht⟩
      rcases List.mem_cons.mp hv with rfl | hv
      · exact not_le.mp fun hle => hk (.inl hle)
      · exact hl v hv

variable {S : List (K × V)} {m : K}

theorem le_lastKey (hS : Ascending S) (hm : lastKey S = some m) : ∀ a ∈ S, a.1 ≤ m := by
  obtain ⟨e, he, rfl⟩ := map_eq_some_iff.mp hm
  obtain ⟨T, rfl⟩ := List.getLast?_eq_some_iff.mp he
  intro a ha
  rcases List.mem_append.mp ha with ha | ha
  · exact ((List.pairwise_append.mp hS).2.2 a ha e (by simp)).le
  · rw [List.mem_singleton.mp ha]

theorem ascending_flatten (h : Ascending (contents n ts)) (ht : t ∈ ts) : Ascending (flatten n t) := by
  obtain ⟨l, r, rfl⟩ := List.append_of_mem ht
  rw [contents_append, contents_cons] at h
  exact (List.pairwise_append.mp (List.pairwise_append.mp h).2.1).1

theorem exists_maxKey (h : Full n t) : ∃ e ∈ flatten n t, e.1 = maxKey n t := by
  obtain ⟨e, he, hek⟩ := map_eq_some_iff.mp (lastKey_flatten n h)
  exact ⟨e, List.mem_of_getLast? he, hek⟩

theorem le_maxKey (h : Full n t) (hasc : Ascending (flatten n t)) :
    ∀ e ∈ flatten n t, e.1 ≤ maxKey n t := le_lastKey hasc (lastKey_flatten n h)

theorem route_bounds {k : K} (hfull : ∀ u ∈ l ++ t :: r, Full n u)
    (hasc : Ascending (contents n (l ++ t :: r))) (hl : ∀ u ∈ l, maxKey n u < k)
    (ht : k ≤ maxKey n t ∨ r = []) :
    (∀ a ∈ contents n l, a.1 < k) ∧ ∀ c ∈ contents n r, k < c.1 := by
  constructor
  · intro a ha
    obtain ⟨u, hu, hau⟩ := List.mem_flatMap.mp ha
    have hmem : u ∈ l ++ t :: r := List.mem_append_left _ hu
    exact (le_maxKey (hfull u hmem) (ascending_flatten hasc hmem) a hau).trans_lt (hl u hu)
  · rcases ht with hk | rfl
    · intro c hc
      have htm : t ∈ l ++ t :: r := by simp
      obtain ⟨e, he, hek⟩ := exists_maxKey (hfull t htm)
      rw [contents_append, contents_cons] at hasc
      have hlt := (List.pairwise_append.mp (List.pairwise_append.mp hasc).2.1).2.2 e he c hc
      exact hk.trans_lt (hek ▸ hlt)
    · simp

/-! ## What an edit does to the entries -/

variable {B} {f : List (K × V) → List (K × V)} {k : K}

/-- **An edit changes the entries by `f` and keeps the nodes full.** -/
theorem edit_contents (hf : Local f k) : ∀ (n : ℕ) {t : Tree K V n} {last : Bool}
    {us : List (Tree K V n)}, Full n t → Ascending (flatten n t) → edit B f k n t last = some us →
      contents n us = f (flatten n t) ∧ ∀ u ∈ us, Full n u
  | 0, es, last, us, _, _, h => by
    rw [edit] at h
    split_ifs at h
    cases h
    exact ⟨by rw [contents_zero, flatten_chunk]; rfl, fun c hc => ((chunked_chunk _).run hc).1⟩
  | n + 1, ts, last, us, ⟨hne, hfull⟩, hasc, h => by
    obtain ⟨l, t, r, hr⟩ := exists_route hne k
    obtain ⟨rfl, hl, ht⟩ := route_spec hr
    obtain ⟨hlt, hgt⟩ := route_bounds hfull hasc hl ht
    rw [edit, hr] at h
    obtain ⟨sub, hsub, rfl⟩ := map_eq_some_iff.mp h
    have htm : t ∈ l ++ t :: r := by simp
    obtain ⟨hc, hfs⟩ := edit_contents hf n (hfull t htm) (ascending_flatten hasc htm) hsub
    refine ⟨?_, full_chunkTrees fun u hu => ?_⟩
    · have := hf (contents n l) (flatten n t) (contents n r) hlt hgt
      rw [contents_chunkTrees, contents_append, contents_append, hc, flatten_succ, contents_append,
        contents_cons, ← this, List.append_assoc]
    · rcases List.mem_append.mp hu with hu | hu
      · rcases List.mem_append.mp hu with hu | hu
        · exact hfull u (List.mem_append_left _ hu)
        · exact hfs u hu
      · exact hfull u (by simp [hu])

theorem edit_congr {g : List (K × V) → List (K × V)} (hfg : ∀ es, Ascending es → f es = g es) :
    ∀ (n : ℕ) {t : Tree K V n} {last : Bool}, Ascending (flatten n t) →
      edit B f k n t last = edit B g k n t last
  | 0, es, last, hasc => by rw [edit, edit, hfg es hasc]
  | n + 1, ts, last, hasc => by
    rw [edit, edit]
    cases hr : route n k ts with
    | none => rfl
    | some s =>
      obtain ⟨l, t, r⟩ := s
      obtain ⟨rfl, -⟩ := route_spec hr
      dsimp only
      rw [edit_congr hfg n (ascending_flatten hasc (by simp))]

theorem forest_replace (h : Canonical B n (l ++ t :: r)) (hS : r = [] ∨ ClosedAt B n S) :
    forest B n (contents n l ++ S ++ contents n r) = l ++ forest B n S ++ r := by
  obtain ⟨hl, htr, hcl⟩ := canonical_append h
  have hclosed := hcl (List.cons_ne_nil t r)
  rw [← List.singleton_append] at htr
  obtain ⟨-, hr, -⟩ := canonical_append htr
  rw [List.append_assoc, forest_append hclosed, hl, List.append_assoc]
  congr 1
  rcases hS with rfl | hS
  · simp
  · rw [forest_append hS, hr]

/-! ## Insertion -/

theorem local_insert (k : K) (v : V) : Local (insert k v) k := by
  intro A S C hA hC
  rw [List.append_assoc, insert_append_of_lt hA, insert_append_of_gt hC, List.append_assoc]

theorem lastKey_insert (hm : lastKey S = some m) (hk : k ≤ m) (hS : Ascending S) (v : V) :
    lastKey (insert k v S) = some m := by
  obtain ⟨e, he, rfl⟩ := map_eq_some_iff.mp hm
  obtain ⟨T, rfl⟩ := List.getLast?_eq_some_iff.mp he
  rcases hk.lt_or_eq with hlt | rfl
  · rw [insert_append_of_gt (by simpa using hlt), lastKey_concat]
  · have hT : ∀ a ∈ T, a.1 < e.1 := fun a ha => (List.pairwise_append.mp hS).2.2 a ha e (by simp)
    rw [insert_append_of_lt hT, OrdMap.insert, if_neg (lt_irrefl _), if_pos rfl, lastKey_concat]

theorem Canonical.closed_of_following (h : Canonical B n (l ++ t :: r)) (hr : r ≠ []) :
    ClosedAt B n (flatten n t) := by
  have h1 := (canonical_append h).2.1
  rw [← List.singleton_append] at h1
  have h2 := (canonical_append h1).2.2 hr
  rwa [contents_singleton] at h2

theorem closedAt_of_lastKey {S' : List (K × V)} (h : ClosedAt B n S) (he : lastKey S' = lastKey S) :
    ClosedAt B n S' := by
  rwa [ClosedAt, he]

theorem isOpen_of_closed (h : ClosedAt B 0 S) : isOpen B S = false := by
  unfold isOpen
  cases hk : lastKey S with
  | none => rfl
  | some m => simp [h m hk 0 le_rfl]

theorem closed_of_not_isOpen (h : isOpen B S = false) : ClosedAt B 0 S := by
  intro m hm i hi
  obtain rfl := Nat.le_zero.mp hi
  simpa [isOpen, mem_def.mp hm] using h

/-- **On a canonical tree an insertion never gives up, and its result is canonical.** -/
theorem edit_insert (v : V) : ∀ (n : ℕ) {t : Tree K V n} {last : Bool}, Canonical B n [t] →
    Ascending (flatten n t) → (last = true ∨ ClosedAt B n (flatten n t) ∧ k ≤ maxKey n t) →
      edit B (insert k v) k n t last = some (forest B n (insert k v (flatten n t)))
  | 0, es, last, hc, hasc, hlast => by
    have hfull : Full 0 es := hc.full es (by simp)
    have ho : (isOpen B (insert k v es) && !last) = false := by
      rcases hlast with rfl | ⟨hcl, hk⟩
      · simp
      · have hlk := lastKey_flatten 0 hfull
        have ho : isOpen B (insert k v es) = false := isOpen_of_closed (closedAt_of_lastKey hcl
          ((lastKey_insert hlk hk hasc v).trans hlk.symm))
        rw [ho]
        rfl
    rw [edit, ho]
    rfl
  | n + 1, ts, last, hc, hasc, hlast => by
    have hts : Canonical B n ts := canonical_node hc
    have hfull : Full (n + 1) ts := hc.full ts (by simp)
    obtain ⟨l, t, r, hr⟩ := exists_route hfull.1 k
    obtain ⟨rfl, hl, ht⟩ := route_spec hr
    obtain ⟨hlt, hgt⟩ := route_bounds hfull.2 hasc hl ht
    have htm : t ∈ l ++ t :: r := by simp
    have hft := hfull.2 t htm
    have hat := ascending_flatten hasc htm
    -- the child is the last one of the tree, or it is closed and reaches the key
    have hchild : (last && r.isEmpty) = true ∨ ClosedAt B n (flatten n t) ∧ k ≤ maxKey n t := by
      by_cases hrn : r = []
      · subst hrn
        rcases hlast with rfl | ⟨hcl, hk⟩
        · simp
        · rw [maxKey_concat] at hk
          rw [flatten_succ, contents_append, contents_singleton,
            closedAt_append (flatten_ne_nil n hft)] at hcl
          exact .inr ⟨hcl.mono (Nat.le_succ n), hk⟩
      · exact .inr ⟨hts.closed_of_following hrn, ht.resolve_right hrn⟩
    have hS : r = [] ∨ ClosedAt B n (insert k v (flatten n t)) := by
      by_cases hrn : r = []
      · exact .inl hrn
      · have hlk := lastKey_flatten n hft
        exact .inr (closedAt_of_lastKey (hts.closed_of_following hrn)
          ((lastKey_insert hlk (ht.resolve_right hrn) hat v).trans hlk.symm))
    have hins := local_insert k v (contents n l) (flatten n t) (contents n r) hlt hgt
    rw [edit, hr]
    dsimp only
    rw [edit_insert v n (hts.of_mem htm) hat hchild, map_some, ← forest_replace hts hS,
      ← hins, flatten_succ, contents_append, contents_cons, forest, List.append_assoc]

/-! ## Removal -/

theorem local_erase (k : K) : Local (V := V) (erase k) k := by
  intro A S C hA hC
  rw [erase_append, erase_append, erase_of_ne fun a ha => (hA a ha).ne,
    erase_of_ne fun c hc => (hC c hc).ne']

variable (B) in
/-- Both `k` and the key before it end every node below level `j`, only `k` does at `j`, and
something follows. -/
def Defect (k : K) (E : List (K × V)) : Prop :=
  ∃ A p x C, E = A ++ p :: (k, x) :: C ∧ C ≠ [] ∧ ∃ j, 0 < j ∧
    (∀ i < j, B p.1 i = true ∧ B k i = true) ∧ B p.1 j = false ∧ B k j = true

theorem Defect.split (h : Defect B k S) (L R : List (K × V)) : Defect B k (L ++ S ++ R) := by
  obtain ⟨A, p, x, C, rfl, hC, hj⟩ := h
  exact ⟨L ++ A, p, x, C ++ R, by simp, by simp [hC], hj⟩

theorem closedAt_of_not_defect {A : List (K × V)} {p : K × V} {x : V} {L R : List (K × V)}
    (hcl : ClosedAt B n (A ++ [p, (k, x)])) (hR : R ≠ [])
    (hd : ¬ Defect B k (L ++ (A ++ [p, (k, x)]) ++ R)) (h0 : B p.1 0 = true) :
    ClosedAt B n (A ++ [p]) := by
  intro m hm i hi
  obtain rfl : p.1 = m := Option.some.inj ((lastKey_concat A p).symm.trans hm)
  have hk : ∀ i ≤ n, B k i = true := fun i hi =>
    hcl k (by rw [show A ++ [p, (k, x)] = (A ++ [p]) ++ [(k, x)] by simp, lastKey_concat]; rfl) i hi
  by_contra hne
  -- the least level at which the key before `k` is no boundary is the level of a defect
  have hex : ∃ j, B p.1 j = false := ⟨i, Bool.eq_false_iff.mpr hne⟩
  have hle : Nat.find hex ≤ i := Nat.find_min' hex (Bool.eq_false_iff.mpr hne)
  refine hd ⟨L ++ A, p, x, R, by simp, hR, Nat.find hex, ?_, fun j hj => ?_, Nat.find_spec hex,
    hk _ (hle.trans hi)⟩
  · refine Nat.pos_of_ne_zero fun hz => ?_
    have := Nat.find_spec hex
    rw [hz, h0] at this
    exact Bool.noConfusion this
  · exact ⟨by simpa using Nat.find_min hex hj, hk j (by omega)⟩

theorem lastKey_erase (hm : lastKey S = some m) (hk : k ≠ m) : lastKey (erase k S) = some m := by
  obtain ⟨e, he, rfl⟩ := map_eq_some_iff.mp hm
  obtain ⟨T, rfl⟩ := List.getLast?_eq_some_iff.mp he
  have hk' : erase k [e] = [e] := erase_of_ne (by simpa using hk.symm)
  rw [erase_append, hk', lastKey_concat]

theorem erase_lastKey (hS : Ascending S) (hm : lastKey S = some k) :
    ∃ T x, S = T ++ [(k, x)] ∧ erase k S = T := by
  obtain ⟨⟨k', x⟩, he, rfl⟩ := map_eq_some_iff.mp hm
  obtain ⟨T, rfl⟩ := List.getLast?_eq_some_iff.mp he
  exact ⟨T, x, rfl, (erase_middle hS).trans (List.append_nil T)⟩

theorem closedAt_erase {L R : List (K × V)} (hS : Ascending S) (hcl : ClosedAt B n S)
    (hR : R ≠ []) (hd : ¬ Defect B k (L ++ S ++ R)) (h0 : ClosedAt B 0 (erase k S)) :
    ClosedAt B n (erase k S) := by
  cases hm : lastKey S with
  | none =>
    rw [lastKey_eq_none.mp hm]
    exact closedAt_nil n
  | some m =>
    by_cases hk : k = m
    · subst hk
      obtain ⟨T, x, rfl, hT⟩ := erase_lastKey hS hm
      rw [hT] at h0 ⊢
      rcases List.eq_nil_or_concat T with rfl | ⟨A, p, rfl⟩
      · exact closedAt_nil n
      · rw [List.concat_eq_append] at *
        have hp := h0 p.1 (lastKey_concat A p) 0 le_rfl
        have he : A ++ [p] ++ [(k, x)] = A ++ [p, (k, x)] := by simp
        rw [he] at hcl hd
        exact closedAt_of_not_defect hcl hR hd hp
    · exact closedAt_of_lastKey hcl ((lastKey_erase hm hk).trans hm.symm)

/-- **Without a defect, a removal that does not give up is canonical.** -/
theorem edit_erase : ∀ (n : ℕ) {t : Tree K V n} {last : Bool} {us : List (Tree K V n)},
    Canonical B n [t] → Ascending (flatten n t) → (last = true ∨ ClosedAt B n (flatten n t)) →
      ¬ Defect B k (flatten n t) → edit B (erase k) k n t last = some us →
        us = forest B n (erase k (flatten n t)) ∧
          (last = false → ClosedAt B 0 (erase k (flatten n t)))
  | 0, es, last, us, _, _, _, _, h => by
    rw [edit] at h
    split_ifs at h with ho
    refine ⟨(Option.some.inj h).symm, fun hl => closed_of_not_isOpen ?_⟩
    simpa [hl] using ho
  | n + 1, ts, last, us, hc, hasc, hlast, hd, h => by
    have hts : Canonical B n ts := canonical_node hc
    have hfull : Full (n + 1) ts := hc.full ts (by simp)
    obtain ⟨l, t, r, hr⟩ := exists_route hfull.1 k
    obtain ⟨rfl, hl, ht⟩ := route_spec hr
    obtain ⟨hlt, hgt⟩ := route_bounds hfull.2 hasc hl ht
    have htm : t ∈ l ++ t :: r := by simp
    have hft := hfull.2 t htm
    have hat := ascending_flatten hasc htm
    rw [flatten_succ, contents_append, contents_cons, ← List.append_assoc] at hd hlast ⊢
    have hdt : ¬ Defect B k (flatten n t) := fun h => hd (h.split _ _)
    have hchild : (last && r.isEmpty) = true ∨ ClosedAt B n (flatten n t) := by
      by_cases hrn : r = []
      · subst hrn
        rcases hlast with rfl | hcl
        · simp
        · rw [contents_nil, List.append_nil, closedAt_append (flatten_ne_nil n hft)] at hcl
          exact .inr (hcl.mono (Nat.le_succ n))
      · exact .inr (hts.closed_of_following hrn)
    rw [edit, hr] at h
    obtain ⟨sub, hsub, rfl⟩ := map_eq_some_iff.mp h
    obtain ⟨rfl, h0⟩ := edit_erase n (hts.of_mem htm) hat hchild hdt hsub
    have hrc : r ≠ [] → contents n r ≠ [] := fun hrn he => hrn ((contents_eq_nil fun u hu =>
      flatten_ne_nil n (hfull.2 u (by simp [hu]))).mp he)
    have hS : r = [] ∨ ClosedAt B n (erase k (flatten n t)) := by
      by_cases hrn : r = []
      · exact .inl hrn
      · exact .inr (closedAt_erase hat (hts.closed_of_following hrn) (hrc hrn) hd
          (h0 (by simp [hrn])))
    have hloc := local_erase k (contents n l) (flatten n t) (contents n r) hlt hgt
    refine ⟨?_, fun hf => ?_⟩
    · rw [← forest_replace hts hS, ← hloc, forest]
    · -- the end of the node: its last child that still has entries
      rw [hloc]
      have hcl := hlast.resolve_left (by simp [hf])
      by_cases hrn : r = []
      · subst hrn
        rw [contents_nil, List.append_nil]
        by_cases hne : erase k (flatten n t) = []
        · rw [hne, List.append_nil]
          exact ((canonical_append hts).2.2 (List.cons_ne_nil _ _)).mono (Nat.zero_le n)
        · exact (closedAt_append hne).mpr (h0 (by simp [hf]))
      · rw [closedAt_append (hrc hrn)] at hcl ⊢
        exact hcl.mono (Nat.zero_le _)

end LevelTree
