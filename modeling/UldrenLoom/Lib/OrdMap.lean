import Mathlib

/-!
# Ordered maps as ascending entry lists

A finite map is the list of its entries in strictly ascending key order, as a balanced tree lists
them.

* **`eq_of_get_eq`**: an ascending list is determined by its lookups.
-/

namespace OrdMap

open List

variable {K V : Type} [LinearOrder K]

/-- The keys ascend strictly. -/
def Ascending (m : List (K × V)) : Prop := m.Pairwise fun a b => a.1 < b.1

instance (m : List (K × V)) : Decidable (Ascending m) :=
  inferInstanceAs (Decidable (m.Pairwise fun a b => a.1 < b.1))

def get (k : K) : List (K × V) → Option V
  | [] => none
  | e :: m => if e.1 = k then some e.2 else get k m

def insert (k : K) (v : V) : List (K × V) → List (K × V)
  | [] => [(k, v)]
  | e :: m => if k < e.1 then (k, v) :: e :: m else if k = e.1 then (k, v) :: m
    else e :: insert k v m

def erase (k : K) (m : List (K × V)) : List (K × V) := m.filter fun e => e.1 ≠ k

/-! ## Lookups -/

@[simp] theorem get_nil (k : K) : get k ([] : List (K × V)) = none := rfl

theorem get_cons (k : K) (e : K × V) (m : List (K × V)) :
    get k (e :: m) = if e.1 = k then some e.2 else get k m := rfl

variable {k : K} {v : V} {m l A : List (K × V)}

theorem mem_of_get (h : get k m = some v) : (k, v) ∈ m := by
  induction m with
  | nil => simp at h
  | cons e m ih =>
    rw [get_cons] at h
    split_ifs at h with he
    · cases h
      rw [← he]
      exact mem_cons_self
    · exact mem_cons_of_mem _ (ih h)

theorem get_eq_none : get k m = none ↔ ∀ e ∈ m, e.1 ≠ k := by
  induction m with
  | nil => simp
  | cons e m ih =>
    rw [get_cons]
    split_ifs with he
    · simp [he]
    · simp [he, ih]

theorem get_append (k : K) (l m : List (K × V)) : get k (l ++ m) = (get k l).or (get k m) := by
  induction l with
  | nil => simp
  | cons e l ih =>
    rw [cons_append, get_cons, get_cons, ih]
    split_ifs <;> rfl

theorem Ascending.distinct (hm : Ascending m) :
    m.Pairwise fun a b => a.1 ≠ b.1 := hm.imp fun h => h.ne

theorem get_of_mem (hm : m.Pairwise fun a b => a.1 ≠ b.1) (h : (k, v) ∈ m) : get k m = some v := by
  induction m with
  | nil => simp at h
  | cons e m ih =>
    rw [get_cons]
    rcases mem_cons.mp h with rfl | h'
    · simp
    · rw [if_neg (rel_of_pairwise_cons hm h'), ih hm.of_cons h']

theorem get_eq_some (hm : Ascending m) :
    get k m = some v ↔ (k, v) ∈ m := ⟨mem_of_get, get_of_mem hm.distinct⟩

theorem get_perm (hm : Ascending m) (h : l.Perm m) (k : K) : get k l = get k m := by
  have hl : l.Pairwise fun a b => a.1 ≠ b.1 :=
    h.symm.pairwise hm.distinct fun hab => hab.symm
  cases hk : get k m with
  | none => exact get_eq_none.mpr fun e he => get_eq_none.mp hk e (h.mem_iff.mp he)
  | some v => exact get_of_mem hl (h.mem_iff.mpr (mem_of_get hk))

/-- **An ascending list is determined by its lookups.** -/
theorem eq_of_get_eq {m' : List (K × V)} (hm : Ascending m) (hm' : Ascending m')
    (h : ∀ k, get k m = get k m') : m = m' := by
  have hmem : ∀ e, e ∈ m ↔ e ∈ m' := fun e => by
    rw [← Prod.eta e, ← get_eq_some hm, h, get_eq_some hm']
  exact ((perm_ext_iff_of_nodup hm.nodup hm'.nodup).mpr hmem).eq_of_pairwise
    (fun a b _ _ hab hba => absurd hab hba.not_gt) hm hm'

/-! ## Updates -/

theorem get_insert (k k' : K) (v : V) (m : List (K × V)) :
    get k' (insert k v m) = if k = k' then some v else get k' m := by
  induction m with
  | nil => rfl
  | cons e m ih =>
    rw [insert]
    split_ifs with hlt hk heq hk hk
    · rw [get_cons, if_pos hk]
    · rw [get_cons, if_neg hk]
    · rw [get_cons, if_pos hk]
    · rw [get_cons, get_cons, if_neg hk, if_neg (heq ▸ hk)]
    · rw [get_cons, ih, if_pos hk, if_neg fun he => heq (hk.trans he.symm)]
    · rw [get_cons, get_cons, ih, if_neg hk]

theorem mem_insert {e : K × V} (h : e ∈ insert k v m) : e = (k, v) ∨ e ∈ m := by
  induction m with
  | nil => exact .inl (mem_singleton.mp h)
  | cons a m ih =>
    rw [insert] at h
    split_ifs at h
    · exact mem_cons.mp h
    · rcases mem_cons.mp h with rfl | h
      · exact .inl rfl
      · exact .inr (mem_cons_of_mem _ h)
    · rcases mem_cons.mp h with rfl | h
      · exact .inr mem_cons_self
      · exact (ih h).imp_right (mem_cons_of_mem _)

theorem ascending_insert (hm : Ascending m) (k : K) (v : V) : Ascending (insert k v m) := by
  induction m with
  | nil => exact pairwise_singleton _ _
  | cons e m ih =>
    rw [insert]
    split_ifs with hlt heq
    · refine pairwise_cons.mpr ⟨fun a ha => ?_, hm⟩
      rcases mem_cons.mp ha with rfl | ha
      · exact hlt
      · exact hlt.trans (rel_of_pairwise_cons hm ha)
    · exact pairwise_cons.mpr ⟨fun a ha => heq ▸ rel_of_pairwise_cons hm ha, hm.of_cons⟩
    · refine pairwise_cons.mpr ⟨fun a ha => ?_, ih hm.of_cons⟩
      rcases mem_insert ha with rfl | ha
      · exact lt_of_le_of_ne (not_lt.mp hlt) (Ne.symm heq)
      · exact rel_of_pairwise_cons hm ha

theorem ascending_erase (hm : Ascending m) (k : K) : Ascending (erase k m) :=
  hm.filter _

theorem get_erase (k k' : K) (m : List (K × V)) :
    get k' (erase k m) = if k = k' then none else get k' m := by
  induction m with
  | nil => simp [erase]
  | cons e m ih =>
    rw [erase] at ih ⊢
    by_cases he : e.1 = k
    · rw [filter_cons_of_neg (by simp [he]), ih, get_cons]
      split_ifs with h1 h2
      · rfl
      · exact absurd (he.symm.trans h2) h1
      · rfl
    · rw [filter_cons_of_pos (by simp [he]), get_cons, get_cons, ih]
      split_ifs with h1 h2
      · exact absurd (h1.trans h2.symm) he
      · rfl
      · rfl
      · rfl

/-! ## Updates inside a longer list -/

theorem insert_append_of_lt (hA : ∀ a ∈ A, a.1 < k) (v : V) (S : List (K × V)) :
    insert k v (A ++ S) = A ++ insert k v S := by
  induction A with
  | nil => rfl
  | cons a A ih =>
    have ha := hA a mem_cons_self
    rw [cons_append, insert, if_neg ha.not_gt, if_neg ha.ne',
      ih fun b hb => hA b (mem_cons_of_mem _ hb)]
    rfl

theorem insert_append_of_gt {C : List (K × V)} (hC : ∀ c ∈ C, k < c.1) (v : V) (S : List (K × V)) :
    insert k v (S ++ C) = insert k v S ++ C := by
  induction S with
  | nil =>
    cases C with
    | nil => rfl
    | cons c C =>
      have hc : insert k v (c :: C) = (k, v) :: c :: C := if_pos (hC c mem_cons_self)
      rw [nil_append, hc]
      rfl
  | cons e S ih =>
    rw [cons_append, insert, insert, ih]
    split_ifs <;> rfl

theorem erase_append (k : K) (A S : List (K × V)) : erase k (A ++ S) = erase k A ++ erase k S :=
  filter_append _ _

theorem erase_of_ne (h : ∀ a ∈ A, a.1 ≠ k) : erase k A = A :=
  filter_eq_self.mpr fun a ha => by simpa using h a ha

theorem erase_middle {C : List (K × V)} {x : V} (h : Ascending (A ++ (k, x) :: C)) :
    erase k (A ++ (k, x) :: C) = A ++ C := by
  obtain ⟨-, hC, hA⟩ := pairwise_append.mp h
  have hkx : erase k [(k, x)] = [] := by simp [erase]
  have hkC : erase k C = C := erase_of_ne fun c hc => ((pairwise_cons.mp hC).1 c hc).ne'
  rw [← singleton_append, erase_append, erase_append, hkx, hkC, nil_append,
    erase_of_ne fun a ha => (hA a ha (k, x) (by simp)).ne]

/-! ## Building a map entry by entry -/

/-- A map built entry by entry. -/
def insertAll (l acc : List (K × V)) : List (K × V) :=
  l.foldl (fun acc e => insert e.1 e.2 acc) acc

theorem ascending_insertAll (l : List (K × V)) {acc : List (K × V)} (h : Ascending acc) :
    Ascending (insertAll l acc) := by
  induction l generalizing acc with
  | nil => exact h
  | cons e l ih => exact ih (ascending_insert h _ _)

theorem get_insertAll (hl : l.Pairwise fun a b => a.1 ≠ b.1) (acc : List (K × V)) (k : K) :
    get k (insertAll l acc) = (get k l).or (get k acc) := by
  induction l generalizing acc with
  | nil => rfl
  | cons e l ih =>
    have hcons : insertAll (e :: l) acc = insertAll l (insert e.1 e.2 acc) := rfl
    rw [hcons, ih hl.of_cons, get_insert, get_cons]
    split_ifs with he
    · have hn : get k l = none := get_eq_none.mpr fun a ha hk =>
        rel_of_pairwise_cons hl ha (he.trans hk.symm)
      rw [hn]
      rfl
    · rfl

/-- **Inserting the entries of a map one by one, in any order, gives the map.** -/
theorem insertAll_of_perm (hm : Ascending m) (h : l.Perm m) : insertAll l [] = m := by
  have hl : l.Pairwise fun a b => a.1 ≠ b.1 :=
    h.symm.pairwise hm.distinct fun hab => hab.symm
  refine eq_of_get_eq (ascending_insertAll l List.Pairwise.nil) hm fun k => ?_
  rw [get_insertAll hl, get_perm hm h, get_nil, Option.or_none]

theorem mem_keys_insert (k k' : K) (v : V) (m : List (K × V)) :
    k' ∈ (insert k v m).map Prod.fst ↔ k' = k ∨ k' ∈ m.map Prod.fst := by
  induction m with
  | nil => simp [insert]
  | cons e m ih =>
    rw [insert]
    split_ifs with hlt heq
    · simp
    · simp [heq]
    · rw [map_cons, mem_cons, ih, map_cons, mem_cons]
      tauto

theorem mem_keys_insertAll (l acc : List (K × V)) (k : K) :
    k ∈ (insertAll l acc).map Prod.fst ↔ k ∈ l.map Prod.fst ∨ k ∈ acc.map Prod.fst := by
  induction l generalizing acc with
  | nil => simp [insertAll]
  | cons e l ih =>
    have h := ih (insert e.1 e.2 acc)
    rw [mem_keys_insert] at h
    rw [show insertAll (e :: l) acc = insertAll l (insert e.1 e.2 acc) from rfl, h, map_cons,
      mem_cons]
    tauto

theorem mem_keys : k ∈ m.map Prod.fst ↔ get k m ≠ none := by
  rw [ne_eq, get_eq_none]
  simp

/-! ## Changing the values -/

section MapVal

variable {W : Type} (f : V → W)

def mapVal (m : List (K × V)) : List (K × W) := m.map fun e => (e.1, f e.2)

omit [LinearOrder K] in
theorem mapVal_cons (e : K × V) (m : List (K × V)) :
    mapVal f (e :: m) = (e.1, f e.2) :: mapVal f m := rfl

theorem get_mapVal (k : K) (m : List (K × V)) : get k (mapVal f m) = (get k m).map f := by
  induction m with
  | nil => rfl
  | cons e m ih =>
    rw [mapVal_cons, get_cons, get_cons, ih]
    split_ifs <;> rfl

theorem ascending_mapVal {m : List (K × V)} (h : Ascending m) : Ascending (mapVal f m) :=
  pairwise_map.mpr h

theorem insert_mapVal (k : K) (v : V) (m : List (K × V)) :
    insert k (f v) (mapVal f m) = mapVal f (insert k v m) := by
  induction m with
  | nil => rfl
  | cons e m ih =>
    rw [mapVal_cons, insert, insert, ih]
    split_ifs <;> rfl

theorem erase_mapVal (k : K) (m : List (K × V)) : erase k (mapVal f m) = mapVal f (erase k m) := by
  rw [erase, erase, mapVal, mapVal, filter_map]
  rfl

end MapVal

end OrdMap
