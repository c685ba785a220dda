import UldrenLoom.Lib.OrdMap

/-!
# Sorted maps and sets

Finite maps and sets that list their keys in ascending order.

* **`SortedMap.ext_get`**, **`SortedSet.ext_mem`**: a map is its lookups, and a set its members.
-/

/-- A finite map, as the list of its entries in ascending key order. -/
structure SortedMap (K V : Type) [LinearOrder K] where
  entries : List (K × V)
  ascending : OrdMap.Ascending entries

namespace SortedMap

variable {K V : Type} [LinearOrder K]

instance [DecidableEq V] : DecidableEq (SortedMap K V) := fun m n =>
  decidable_of_iff (m.entries = n.entries) (by cases m; cases n; simp)

def empty : SortedMap K V := ⟨[], List.Pairwise.nil⟩

instance : Inhabited (SortedMap K V) := ⟨empty⟩

def get (m : SortedMap K V) (k : K) : Option V := OrdMap.get k m.entries

def insert (m : SortedMap K V) (k : K) (v : V) : SortedMap K V :=
  ⟨OrdMap.insert k v m.entries, OrdMap.ascending_insert m.ascending k v⟩

def erase (m : SortedMap K V) (k : K) : SortedMap K V :=
  ⟨OrdMap.erase k m.entries, OrdMap.ascending_erase m.ascending k⟩

def update (m : SortedMap K V) (k : K) (f : V → V) : SortedMap K V :=
  match m.get k with
  | some v => m.insert k (f v)
  | none => m

def keys (m : SortedMap K V) : List K := m.entries.map Prod.fst

/-- The map of a list of entries, later ones overwriting earlier ones. -/
def ofList (l : List (K × V)) : SortedMap K V :=
  ⟨OrdMap.insertAll l [], OrdMap.ascending_insertAll l List.Pairwise.nil⟩

@[simp] theorem get_empty (k : K) : (empty : SortedMap K V).get k = none := rfl

@[simp] theorem get_insert (m : SortedMap K V) (k k' : K) (v : V) :
    (m.insert k v).get k' = if k = k' then some v else m.get k' :=
  OrdMap.get_insert k k' v m.entries

@[simp] theorem get_erase (m : SortedMap K V) (k k' : K) :
    (m.erase k).get k' = if k = k' then none else m.get k' :=
  OrdMap.get_erase k k' m.entries

@[simp] theorem get_update (m : SortedMap K V) (k k' : K) (f : V → V) :
    (m.update k f).get k' = if k = k' then (m.get k').map f else m.get k' := by
  unfold update
  split
  · next v hv =>
    rw [get_insert]
    split_ifs with hk
    · rw [← hk, hv, Option.map_some]
    · rfl
  · next hn =>
    split_ifs with hk
    · rw [← hk, hn, Option.map_none]
    · rfl

variable {m : SortedMap K V} {k : K} {v : V}

theorem get_eq_some {m : SortedMap K V} {k : K} {v : V} :
    m.get k = some v ↔ (k, v) ∈ m.entries := OrdMap.get_eq_some m.ascending

theorem mem_keys {m : SortedMap K V} {k : K} : k ∈ m.keys ↔ m.get k ≠ none := OrdMap.mem_keys

theorem mem_keys_of_get (h : m.get k = some v) : k ∈ m.keys :=
  mem_keys.mpr (by simp [h])

theorem nodup_keys (m : SortedMap K V) : m.keys.Nodup :=
  List.pairwise_map.mpr m.ascending.distinct

/-- **A map is determined by its lookups.** -/
theorem ext_get {n : SortedMap K V} (h : ∀ k, m.get k = n.get k) : m = n := by
  obtain ⟨m, hm⟩ := m
  obtain ⟨n, hn⟩ := n
  have he : m = n := OrdMap.eq_of_get_eq hm hn h
  subst he
  rfl

theorem get_ofList {l : List (K × V)} (hl : l.Pairwise fun a b => a.1 ≠ b.1) (k : K) :
    (ofList l).get k = OrdMap.get k l :=
  (OrdMap.get_insertAll hl [] k).trans Option.or_none

theorem nodup_entries (m : SortedMap K V) : m.entries.Nodup := m.nodup_keys.of_map

/-- How many values satisfy a condition. -/
def count (m : SortedMap K V) (p : V → Bool) : ℕ := m.entries.countP fun e => p e.2

theorem perm_of_get (h : m.get k = some v) : m.entries.Perm ((k, v) :: (m.erase k).entries) := by
  have hnodup : ((k, v) :: (m.erase k).entries).Nodup := by
    refine List.nodup_cons.mpr ⟨fun hk => ?_, nodup_entries (m.erase k)⟩
    rw [← get_eq_some, get_erase, if_pos rfl] at hk
    cases hk
  refine (List.perm_ext_iff_of_nodup (nodup_entries m) hnodup).mpr fun e => ?_
  rw [List.mem_cons, ← get_eq_some, ← get_eq_some, get_erase]
  by_cases hk : k = e.1
  · rw [if_pos hk, ← hk, h, Option.some.injEq]
    constructor
    · rintro rfl
      exact .inl (Prod.ext hk.symm rfl)
    · rintro (rfl | he)
      · rfl
      · cases he
  · rw [if_neg hk]
    exact ⟨.inr, fun he => he.resolve_left fun he => hk (congrArg Prod.fst he).symm⟩

theorem count_of_get (p : V → Bool) (h : m.get k = some v) :
    m.count p = (m.erase k).count p + if p v then 1 else 0 := by
  rw [count, (perm_of_get h).countP_eq, List.countP_cons]
  rfl

theorem erase_of_get_none (h : m.get k = none) : m.erase k = m := by
  refine ext_get fun k' => ?_
  rw [get_erase]
  split_ifs with hk
  · rw [← hk, h]
  · rfl

theorem erase_insert (m : SortedMap K V) (k : K) (v : V) : (m.insert k v).erase k = m.erase k := by
  refine ext_get fun k' => ?_
  rw [get_erase, get_erase, get_insert]
  split_ifs <;> rfl

theorem perm_insert (m : SortedMap K V) (k : K) (v : V) :
    (m.insert k v).entries.Perm ((k, v) :: (m.erase k).entries) := by
  have h := perm_of_get ((get_insert m k k v).trans (if_pos rfl))
  rwa [erase_insert] at h

theorem count_insert (m : SortedMap K V) (k : K) (v : V) (p : V → Bool) :
    (m.insert k v).count p = (m.erase k).count p + if p v then 1 else 0 := by
  rw [count_of_get p ((get_insert m k k v).trans (if_pos rfl)), erase_insert]

theorem ofList_of_perm {l : List (K × V)} (h : l.Perm m.entries) : ofList l = m := by
  obtain ⟨es, hes⟩ := m
  have he : OrdMap.insertAll l [] = es := OrdMap.insertAll_of_perm hes h
  subst he
  rfl

@[simp] theorem ofList_entries (m : SortedMap K V) : ofList m.entries = m :=
  ofList_of_perm (List.Perm.refl _)

end SortedMap

/-- A finite set, as the list of its members in ascending order. -/
structure SortedSet (K : Type) [LinearOrder K] where
  map : SortedMap K Unit
deriving DecidableEq

namespace SortedSet

variable {K : Type} [LinearOrder K]

instance : Membership K (SortedSet K) := ⟨fun s k => s.map.get k = some ()⟩

instance (k : K) (s : SortedSet K) : Decidable (k ∈ s) :=
  inferInstanceAs (Decidable (s.map.get k = some ()))

def empty : SortedSet K := ⟨SortedMap.empty⟩

instance : Inhabited (SortedSet K) := ⟨empty⟩

variable (s : SortedSet K)

def insert (k : K) : SortedSet K := ⟨s.map.insert k ()⟩

def elems : List K := s.map.keys

def insertAll (l : List K) : SortedSet K := l.foldl insert s

def ofList (l : List K) : SortedSet K := empty.insertAll l

def union (s t : SortedSet K) : SortedSet K := s.insertAll t.elems

@[simp] theorem notMem_empty (k : K) : k ∉ (empty : SortedSet K) := by
  intro h
  exact Option.some_ne_none _ (h : (none : Option Unit) = some ()).symm

@[simp] theorem mem_insert (k k' : K) : k' ∈ s.insert k ↔ k' = k ∨ k' ∈ s := by
  change (s.map.insert k ()).get k' = some () ↔ k' = k ∨ s.map.get k' = some ()
  rw [SortedMap.get_insert]
  split_ifs with h
  · simp [h]
  · simp [Ne.symm h]

@[simp] theorem mem_elems (k : K) : k ∈ s.elems ↔ k ∈ s := by
  change k ∈ s.map.keys ↔ s.map.get k = some ()
  rw [SortedMap.mem_keys, Option.ne_none_iff_exists']
  exact ⟨fun ⟨_, h⟩ => h, fun h => ⟨(), h⟩⟩

@[simp] theorem mem_insertAll (l : List K) (k : K) : k ∈ s.insertAll l ↔ k ∈ s ∨ k ∈ l := by
  induction l generalizing s with
  | nil => simp [insertAll]
  | cons a l ih =>
    change k ∈ (s.insert a).insertAll l ↔ _
    rw [ih, mem_insert, List.mem_cons]
    tauto

@[simp] theorem mem_ofList (l : List K) (k : K) : k ∈ ofList l ↔ k ∈ l := by
  rw [ofList, mem_insertAll]
  simp

theorem nodup_elems : s.elems.Nodup := s.map.nodup_keys

/-- **A set is determined by its members.** -/
theorem ext_mem {s t : SortedSet K} (h : ∀ k, k ∈ s ↔ k ∈ t) : s = t := by
  obtain ⟨m⟩ := s
  obtain ⟨n⟩ := t
  have hmn : m = n := SortedMap.ext_get fun k => Option.ext fun u => h k
  rw [hmn]

@[simp] theorem ofList_elems : ofList s.elems = s :=
  ext_mem fun k => by rw [mem_ofList, mem_elems]

end SortedSet
