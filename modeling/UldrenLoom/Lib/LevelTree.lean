import UldrenLoom.Lib.Chunk
import UldrenLoom.Lib.OrdMap

/-!
# Trees of uniform height with content-defined nodes

A tree of level `0` is a leaf, a list of entries; a tree of level `n + 1` is a list of trees of
level `n`. A boundary predicate says which keys end a node at which level.

* **`forest_append`**: a closed part has its own nodes.
* **`canonical_append`**: the parts of a canonical list are canonical, and every node but the last
  is closed.
* **`maxKeys_forest`**: which keys end a node of level `n`.
-/

set_option linter.unusedSectionVars false

namespace LevelTree

open Chunk List

/-- A tree whose leaves are `n` levels down. -/
@[reducible] def Tree (K V : Type) : ℕ → Type
  | 0 => List (K × V)
  | n + 1 => List (Tree K V n)

variable {K V : Type}

def flatten : (n : ℕ) → Tree K V n → List (K × V)
  | 0, es => es
  | n + 1, ts => List.flatMap (flatten n) ts

def contents (n : ℕ) (ts : List (Tree K V n)) : List (K × V) := ts.flatMap (flatten n)

/-- No leaf and no node is empty. -/
def Full : (n : ℕ) → Tree K V n → Prop
  | 0, es => es ≠ []
  | n + 1, ts => ts ≠ [] ∧ ∀ t ∈ ts, Full n t

@[simp] theorem flatten_zero (es : Tree K V 0) : flatten 0 es = es := rfl

variable {n : ℕ}

@[simp] theorem flatten_succ (ts : List (Tree K V n)) : flatten (n + 1) ts = contents n ts := rfl

@[simp] theorem contents_nil : contents n ([] : List (Tree K V n)) = [] := rfl

@[simp] theorem contents_cons (t : Tree K V n) (ts : List (Tree K V n)) :
    contents n (t :: ts) = flatten n t ++ contents n ts := rfl

@[simp] theorem contents_append (ts us : List (Tree K V n)) :
    contents n (ts ++ us) = contents n ts ++ contents n us := flatMap_append

theorem contents_singleton (t : Tree K V n) : contents n [t] = flatten n t := by simp

theorem contents_zero (cs : List (List (K × V))) : contents 0 cs = cs.flatten := by
  induction cs with
  | nil => rfl
  | cons c cs ih => rw [contents_cons, ih]; rfl

theorem contents_succ (cs : List (List (Tree K V n))) :
    contents (n + 1) cs = contents n cs.flatten := by
  induction cs with
  | nil => rfl
  | cons c cs ih => rw [contents_cons, ih, flatten_cons, contents_append]; rfl

theorem contents_eq_nil {ts : List (Tree K V n)} (hf : ∀ t ∈ ts, flatten n t ≠ []) :
    contents n ts = [] ↔ ts = [] := by
  cases ts with
  | nil => simp
  | cons t ts => simp [hf t mem_cons_self]

theorem flatten_ne_nil : ∀ (n : ℕ) {t : Tree K V n}, Full n t → flatten n t ≠ []
  | 0, _, h => h
  | n + 1, _, ⟨hne, hf⟩ => fun h =>
    hne ((contents_eq_nil fun t ht => flatten_ne_nil n (hf t ht)).mp h)

def lastKey (es : List (K × V)) : Option K := es.getLast?.map Prod.fst

theorem lastKey_append {es fs : List (K × V)} (h : fs ≠ []) : lastKey (es ++ fs) = lastKey fs := by
  rw [lastKey, lastKey, List.getLast?_append_of_ne_nil es h]

theorem lastKey_concat (es : List (K × V)) (e : K × V) : lastKey (es ++ [e]) = some e.1 := by
  simp [lastKey]

theorem lastKey_eq_none {es : List (K × V)} : lastKey es = none ↔ es = [] := by
  simp [lastKey]

section Keys

variable [Inhabited K]

/-- The largest key of a tree: the key of its last entry. -/
def maxKey : (n : ℕ) → Tree K V n → K
  | 0, es => (es.getLast?.map Prod.fst).getD default
  | n + 1, ts => (ts.getLast?.map (maxKey n)).getD default

theorem maxKey_concat {n : ℕ} (ts : List (Tree K V n)) (t : Tree K V n) :
    maxKey (n + 1) (ts ++ [t]) = maxKey n t := by
  simp [maxKey]

theorem lastKey_flatten : ∀ (n : ℕ) {t : Tree K V n}, Full n t →
    lastKey (flatten n t) = some (maxKey n t)
  | 0, es, h => by
    rw [flatten_zero, lastKey, maxKey, List.getLast?_eq_getLast_of_ne_nil h]
    rfl
  | n + 1, ts, ⟨hne, hf⟩ => by
    obtain ⟨us, t, rfl⟩ : ∃ us t, ts = us ++ [t] :=
      ⟨_, _, (dropLast_append_getLast hne).symm⟩
    have ht := hf t (by simp)
    rw [flatten_succ, contents_append, contents_singleton, lastKey_append (flatten_ne_nil n ht),
      lastKey_flatten n ht, maxKey_concat]

end Keys

/-! ## Forests -/

section Forest

variable [Inhabited K] (B : K → ℕ → Bool)

/-- Group trees of level `n` into nodes of level `n + 1`. -/
def chunkTrees (n : ℕ) (ts : List (Tree K V n)) : List (Tree K V (n + 1)) :=
  chunk (fun t => B (maxKey n t) (n + 1)) ts

/-- The nodes of level `n` over a list of entries. -/
def forest : (n : ℕ) → List (K × V) → List (Tree K V n)
  | 0, E => chunk (fun e => B e.1 0) E
  | n + 1, E => chunkTrees B n (forest n E)

/-- Empty, or ending in a boundary of every level up to `n`. -/
def ClosedAt (n : ℕ) (E : List (K × V)) : Prop := ∀ k ∈ lastKey E, ∀ i ≤ n, B k i = true

variable {B}

theorem contents_chunkTrees (n : ℕ) (ts : List (Tree K V n)) :
    contents (n + 1) (chunkTrees B n ts) = contents n ts := by
  rw [contents_succ, chunkTrees, flatten_chunk]

variable {n : ℕ} {ts : List (Tree K V n)}

theorem full_chunkTrees (h : ∀ t ∈ ts, Full n t) : ∀ u ∈ chunkTrees B n ts, Full (n + 1) u := by
  intro u hu
  refine ⟨((chunked_chunk ts).run hu).1, fun t ht => h t ?_⟩
  rw [← flatten_chunk (p := fun t => B (maxKey n t) (n + 1)) ts]
  exact mem_flatten.mpr ⟨u, hu, ht⟩

theorem contents_forest (n : ℕ) (E : List (K × V)) : contents n (forest B n E) = E := by
  induction n with
  | zero => rw [forest, contents_zero, flatten_chunk]
  | succ n ih => rw [forest, contents_chunkTrees, ih]

theorem full_forest (n : ℕ) (E : List (K × V)) : ∀ t ∈ forest B n E, Full n t := by
  induction n with
  | zero => exact fun t ht => ((chunked_chunk E).run ht).1
  | succ n ih => exact full_chunkTrees ih

variable {E : List (K × V)}

theorem forest_eq_nil : forest B n E = [] ↔ E = [] := by
  have h := contents_eq_nil fun t ht => flatten_ne_nil n (full_forest (B := B) n E t ht)
  rw [← h, contents_forest]

theorem lastKey_contents {t : Tree K V n} (ht : Full n t) (h : ts.getLast? = some t) :
    lastKey (contents n ts) = some (maxKey n t) := by
  obtain ⟨us, rfl⟩ := List.getLast?_eq_some_iff.mp h
  rw [contents_append, contents_singleton, lastKey_append (flatten_ne_nil n ht),
    lastKey_flatten n ht]

theorem closedAt_nil (n : ℕ) : ClosedAt (V := V) B n [] := by simp [ClosedAt, lastKey]

theorem ClosedAt.mono {m : ℕ} (h : ClosedAt B n E) (hm : m ≤ n) :
    ClosedAt B m E := fun k hk i hi => h k hk i (hi.trans hm)

theorem closedAt_append {F : List (K × V)} (h : F ≠ []) :
    ClosedAt B n (E ++ F) ↔ ClosedAt B n F := by
  rw [ClosedAt, ClosedAt, lastKey_append h]

/-- **A closed part has its own nodes.** -/
theorem forest_append {S : List (K × V)} (h : ClosedAt B n S) (T : List (K × V)) :
    forest B n (S ++ T) = forest B n S ++ forest B n T := by
  induction n with
  | zero =>
    refine chunk_append (fun e he => ?_) T
    exact h e.1 (by rw [lastKey, Option.mem_def.mp he]; rfl) 0 le_rfl
  | succ n ih =>
    rw [forest, forest, forest, ih (h.mono (Nat.le_succ n))]
    refine chunk_append (fun t ht => ?_) _
    have hk := lastKey_contents (full_forest n S t (mem_of_getLast? ht)) ht
    rw [contents_forest] at hk
    exact h _ hk _ le_rfl

/-! ## Parts of a forest -/

variable (B) in
/-- The trees are the forest of their own entries. -/
def Canonical (n : ℕ) (ts : List (Tree K V n)) : Prop := forest B n (contents n ts) = ts

theorem canonical_forest (n : ℕ) (E : List (K × V)) : Canonical B n (forest B n E) := by
  rw [Canonical, contents_forest]

theorem Canonical.full (h : Canonical B n ts) : ∀ t ∈ ts, Full n t := h ▸ full_forest n _

theorem canonical_zero {cs : List (List (K × V))} :
    Canonical B 0 cs ↔ Chunked (fun e : K × V => B e.1 0) cs := by
  rw [Canonical, contents_zero, forest, chunk_flatten_iff]

theorem canonical_succ {cs : List (List (Tree K V n))} : Canonical B (n + 1) cs ↔
      Canonical B n cs.flatten ∧ Chunked (fun t => B (maxKey n t) (n + 1)) cs := by
  rw [Canonical, contents_succ, forest, chunkTrees, ← chunk_flatten_iff, Canonical]
  constructor
  · intro h
    have hf : forest B n (contents n cs.flatten) = cs.flatten := by
      rw [← flatten_chunk (p := fun t => B (maxKey n t) (n + 1)) (forest B n _), h]
    rw [hf] at h
    exact ⟨hf, h⟩
  · rintro ⟨hf, h⟩
    rw [hf, h]

theorem closedAt_zero_of_closed {ts : List (List (K × V))}
    (hr : ∀ c ∈ ts, Run (fun e : K × V => B e.1 0) c)
    (h : ∀ c ∈ ts.getLast?, Closed (fun e : K × V => B e.1 0) c) :
    ClosedAt B 0 (contents 0 ts) := by
  intro k hk i hi
  obtain rfl : i = 0 := Nat.le_zero.mp hi
  rw [contents_zero] at hk
  cases hl : ts.getLast? with
  | none =>
    rw [List.getLast?_eq_none_iff.mp hl] at hk
    simp [lastKey] at hk
  | some c =>
    have hc := (hr c (mem_of_getLast? hl)).1
    obtain ⟨us, rfl⟩ := List.getLast?_eq_some_iff.mp hl
    rw [flatten_append, flatten_singleton, lastKey_append hc] at hk
    obtain ⟨e, he, rfl⟩ := Option.map_eq_some_iff.mp (Option.mem_def.mp hk)
    exact h c hl e he

/-- **Every part of a forest is the forest of its own entries**, and closed if something follows. -/
theorem canonical_append {us : List (Tree K V n)} (h : Canonical B n (ts ++ us)) :
    Canonical B n ts ∧ Canonical B n us ∧ (us ≠ [] → ClosedAt B n (contents n ts)) := by
  induction n with
  | zero =>
    obtain ⟨hts, hus, hcl⟩ := chunked_append.mp (canonical_zero.mp h)
    exact ⟨canonical_zero.mpr hts, canonical_zero.mpr hus,
      fun hne => closedAt_zero_of_closed (fun c hc => hts.run hc) (hcl hne)⟩
  | succ n ih =>
    obtain ⟨hf, hch⟩ := canonical_succ.mp h
    rw [flatten_append] at hf
    obtain ⟨hts, hus, hcl⟩ := chunked_append.mp hch
    obtain ⟨ht, hu, hc⟩ := ih hf
    refine ⟨canonical_succ.mpr ⟨ht, hts⟩, canonical_succ.mpr ⟨hu, hus⟩, fun hne => ?_⟩
    have hflat : us.flatten ≠ [] := fun he => by
      rw [← chunk_flatten_iff.mpr hus, he] at hne
      exact hne rfl
    intro k hk i hi
    rw [contents_succ] at hk
    rcases Nat.lt_or_ge n i with hlt | hle
    · -- the level of the nodes themselves: the last child of the last node is a boundary
      obtain rfl : i = n + 1 := by omega
      cases hl : ts.getLast? with
      | none =>
        rw [List.getLast?_eq_none_iff.mp hl] at hk
        simp [lastKey] at hk
      | some c =>
        have hcne := (hts.run (mem_of_getLast? hl)).1
        obtain ⟨vs, t, rfl⟩ : ∃ vs t, c = vs ++ [t] :=
          ⟨_, _, (dropLast_append_getLast hcne).symm⟩
        obtain ⟨ws, rfl⟩ := List.getLast?_eq_some_iff.mp hl
        have hlast : (ws ++ [vs ++ [t]]).flatten.getLast? = some t := by simp
        have hfull : Full n t := ht.full t (mem_of_getLast? hlast)
        rw [lastKey_contents hfull hlast] at hk
        cases hk
        exact hcl hne _ hl t (by simp)
    · exact hc hflat k hk i hle

theorem Canonical.of_mem (h : Canonical B n ts) {t : Tree K V n} (ht : t ∈ ts) : Canonical B n [t] := by
  obtain ⟨l, r, rfl⟩ := append_of_mem ht
  have h1 := (canonical_append h).2.1
  rw [← singleton_append] at h1
  exact (canonical_append h1).1

theorem canonical_node (h : Canonical B (n + 1) [ts]) : Canonical B n ts := by
  have := (canonical_succ.mp h).1
  rwa [flatten_singleton] at this

/-! ## The keys that end a node -/

variable (B) in
/-- The key is a boundary of every level up to `n`. -/
def boundaryTo : ℕ → K → Bool
  | 0, k => B k 0
  | n + 1, k => boundaryTo n k && B k (n + 1)

theorem boundaryTo_iff {k : K} : boundaryTo B n k = true ↔ ∀ i ≤ n, B k i = true := by
  induction n with
  | zero => simp [boundaryTo]
  | succ n ih =>
    rw [boundaryTo, Bool.and_eq_true, ih]
    constructor
    · rintro ⟨h1, h2⟩ i hi
      rcases Nat.lt_or_ge n i with hlt | hle
      · obtain rfl : i = n + 1 := by omega
        exact h2
      · exact h1 i hle
    · exact fun h => ⟨fun i hi => h i (by omega), h _ le_rfl⟩

theorem map_maxKey_chunkTrees (n : ℕ) (ts : List (Tree K V n)) :
    (chunkTrees B n ts).map (maxKey (n + 1)) =
      (cuts (fun t => B (maxKey n t) (n + 1)) ts).map (maxKey n) := by
  have h := congrArg (List.map fun o => (o.map (maxKey n)).getD default)
    (map_getLast?_chunk (p := fun t => B (maxKey n t) (n + 1)) ts)
  rw [map_map, map_map] at h
  exact h

/-- **The keys that end a node of level `n`**: the boundaries of every level up to `n`, and the
last key. -/
theorem maxKeys_forest (n : ℕ) (E : List (K × V)) :
    (forest B n E).map (maxKey n) = cuts (boundaryTo B n) (E.map Prod.fst) := by
  induction n with
  | zero =>
    have h := congrArg (List.map fun o => (o.map Prod.fst).getD default)
      (map_getLast?_chunk (p := fun e : K × V => B e.1 0) E)
    rw [map_map, map_map] at h
    rw [cuts_map]
    exact h
  | succ n ih =>
    have hc : cuts (fun k => B k (n + 1)) ((forest B n E).map (maxKey n)) =
        (cuts (fun t => B (maxKey n t) (n + 1)) (forest B n E)).map (maxKey n) := cuts_map _ _
    rw [forest, map_maxKey_chunkTrees, ← hc, ih, cuts_cuts]
    rfl

theorem length_forest (n : ℕ) (E : List (K × V)) :
    (forest B n E).length = (cuts (boundaryTo B n) (E.map Prod.fst)).length := by
  rw [← maxKeys_forest, length_map]

theorem length_forest_erase_le [LinearOrder K] (n : ℕ) (k : K) (E : List (K × V)) :
    (forest B n (OrdMap.erase k E)).length ≤ (forest B n E).length := by
  rw [length_forest, length_forest]
  have : (OrdMap.erase k E).map Prod.fst = (E.map Prod.fst).filter fun x => x ≠ k := by
    rw [OrdMap.erase, filter_map]
    rfl
  rw [this]
  exact length_cuts_filter_le _ _

theorem length_forest_succ_le (n : ℕ) (E : List (K × V)) :
    (forest B (n + 1) E).length ≤ (forest B n E).length := by
  have h := congrArg List.length (map_maxKey_chunkTrees (B := B) n (forest B n E))
  rw [length_map, length_map] at h
  rw [forest, h]
  exact (cuts_sublist _ _).length_le

theorem length_forest_le {m : ℕ} (h : m ≤ n) (E : List (K × V)) :
    (forest B n E).length ≤ (forest B m E).length := by
  induction h with
  | refl => exact le_rfl
  | step _ ih => exact (length_forest_succ_le _ E).trans ih

end Forest

end LevelTree
