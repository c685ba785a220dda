import UldrenLoom.Lib.SortedMap

/-!
# Logs with an index of positions

An append-only list of entries with keys, and for every key the positions of its entries.

* **`get_foldl_insert`**: the map that a list makes when it is inserted entry by entry.
* **`VersionLog.lookup_eq`**: walking the positions backwards finds the last entry with the key that
  satisfies a condition.
-/

section Newest

variable {K E : Type} [DecidableEq K] (key : E → K)

/-- The last entry with a key. -/
def newest (k : K) (l : List E) : Option E := l.reverse.find? fun e => key e = k

theorem newest_append (k : K) (l l' : List E) :
    newest key k (l ++ l') = (newest key k l').or (newest key k l) := by
  rw [newest, List.reverse_append, List.find?_append]
  rfl

theorem newest_singleton (k : K) (e : E) :
    newest key k [e] = if key e = k then some e else none := by
  by_cases h : key e = k
  · simp [newest, h]
  · simp [newest, h]

theorem newest_concat (k : K) (l : List E) (e : E) :
    newest key k (l ++ [e]) = if key e = k then some e else newest key k l := by
  rw [newest_append, newest_singleton]
  split_ifs <;> rfl

variable {key}

theorem key_of_newest {k : K} {l : List E} {e : E} (h : newest key k l = some e) : key e = k := by
  simpa using List.find?_some h

theorem mem_of_newest {k : K} {l : List E} {e : E} (h : newest key k l = some e) : e ∈ l :=
  List.mem_reverse.mp (List.mem_of_find?_eq_some h)

theorem exists_newest {k : K} {l : List E} {e : E} (he : e ∈ l) (hk : key e = k) :
    ∃ e', newest key k l = some e' := by
  refine Option.isSome_iff_exists.mp (List.find?_isSome.mpr ⟨e, List.mem_reverse.mpr he, ?_⟩)
  exact decide_eq_true hk

theorem newest_filter (p : E → Bool) (k : K) (l : List E) :
    newest key k (l.filter p) = l.reverse.find? fun e => decide (key e = k) && p e := by
  rw [newest, ← List.filter_reverse, List.find?_filter]
  congr 1
  funext e
  rw [Bool.decide_and, Bool.decide_eq_true, Bool.decide_eq_true, Bool.and_comm]

end Newest

theorem get_foldl_insert {K E V : Type} [LinearOrder K] (key : E → K) (f : E → V) (l : List E)
    (m : SortedMap K V) (k : K) :
    (l.foldl (fun m e => m.insert (key e) (f e)) m).get k =
      ((newest key k l).map f).or (m.get k) := by
  induction l using List.reverseRecOn with
  | nil => rfl
  | append_singleton l e ih =>
    rw [List.foldl_append, List.foldl_cons, List.foldl_nil, SortedMap.get_insert, newest_concat, ih]
    split_ifs <;> rfl

/-- The map that the entries of a list make of which some have a value. -/
theorem get_foldl_choose {K V W : Type} [LinearOrder K] (f : K × V → Option W) {l : List (K × V)}
    (hl : l.Pairwise fun a b => a.1 ≠ b.1) (m : SortedMap K W) (k : K) :
    (l.foldl (fun m e => (f e).elim m (m.insert e.1)) m).get k =
      ((OrdMap.get k l).bind fun v => f (k, v)).or (m.get k) := by
  induction l generalizing m with
  | nil => rfl
  | cons e l ih =>
    obtain ⟨hne, hl⟩ := List.pairwise_cons.mp hl
    rw [List.foldl_cons, ih hl, OrdMap.get_cons]
    by_cases hk : e.1 = k
    · rw [OrdMap.get_eq_none.mpr fun e' he' => hk ▸ (hne e' he').symm, if_pos hk, ← hk]
      cases hf : f e with
      | none => simp [hf]
      | some w => simp [hf]
    · rw [if_neg hk]
      cases f e with
      | none => rfl
      | some w => rw [Option.elim_some, SortedMap.get_insert, if_neg hk]

theorem newest_values {K E : Type} [LinearOrder K] {key : E → K} {m : SortedMap K E}
    (h : ∀ k e, m.get k = some e → key e = k) (k : K) :
    newest key k (m.entries.map Prod.snd) = m.get k := by
  have get_of_newest : ∀ e, newest key k (m.entries.map Prod.snd) = some e → m.get k = some e := by
    intro e he
    obtain ⟨⟨k', e'⟩, hmem, rfl⟩ := List.mem_map.mp (mem_of_newest he)
    have hget := SortedMap.get_eq_some.mpr hmem
    rw [← key_of_newest he, h k' e' hget]
    exact hget
  refine Option.ext fun e => ⟨get_of_newest e, fun hget => ?_⟩
  have hmem : e ∈ m.entries.map Prod.snd :=
    List.mem_map.mpr ⟨(k, e), SortedMap.get_eq_some.mp hget, rfl⟩
  obtain ⟨e', he'⟩ := exists_newest hmem (h k e hget)
  rw [he', ← get_of_newest e' he', hget]

section Positions

variable {K E : Type} [DecidableEq K] (key : E → K)

/-- The positions of the entries with a key, ascending. -/
def positions (k : K) (l : List E) : List ℕ :=
  (l.zipIdx.filter fun p => key p.1 = k).map Prod.snd

theorem positions_concat (k : K) (l : List E) (e : E) :
    positions key k (l ++ [e]) = positions key k l ++ if key e = k then [l.length] else [] := by
  unfold positions
  rw [List.zipIdx_append, List.filter_append, List.map_append]
  congr 1
  by_cases h : key e = k
  · simp [h]
  · simp [h]

theorem lt_of_mem_positions {k : K} {l : List E} {i : ℕ} (h : i ∈ positions key k l) :
    i < l.length := by
  obtain ⟨⟨e, j⟩, hp, rfl⟩ := List.mem_map.mp h
  have hzip := List.mem_zipIdx (List.mem_filter.mp hp).1
  simpa using hzip.2.1

theorem find_positions (k : K) (p : E → Bool) (l : List E) :
    ((positions key k l).reverse.filterMap (l[·]?)).find? p =
      l.reverse.find? fun e => decide (key e = k) && p e := by
  induction l using List.reverseRecOn with
  | nil => rfl
  | append_singleton l e ih =>
    have hold : (positions key k l).reverse.filterMap ((l ++ [e])[·]?) =
        (positions key k l).reverse.filterMap (l[·]?) := by
      refine List.filterMap_congr fun i hi => ?_
      exact List.getElem?_append_left (lt_of_mem_positions key (List.mem_reverse.mp hi))
    rw [positions_concat, List.reverse_append, List.filterMap_append, List.find?_append, hold, ih,
      List.reverse_append, List.reverse_singleton, List.singleton_append, List.find?_cons]
    by_cases h : key e = k
    · cases hp : p e <;> simp [h, hp]
    · simp [h]

end Positions

/-- An append-only list of entries with the positions of every key. -/
structure VersionLog (K E : Type) [LinearOrder K] (key : E → K) where
  entries : List E
  index : SortedMap K (List ℕ)
  indexed : ∀ k, (index.get k).getD [] = positions key k entries

namespace VersionLog

variable {K E : Type} [LinearOrder K] {key : E → K}

def empty : VersionLog K E key := ⟨[], .empty, fun _ => rfl⟩

instance : Inhabited (VersionLog K E key) := ⟨empty⟩

variable (log : VersionLog K E key)

def push (e : E) : VersionLog K E key where
  entries := log.entries ++ [e]
  index := log.index.insert (key e) ((log.index.get (key e)).getD [] ++ [log.entries.length])
  indexed k := by
    rw [SortedMap.get_insert, positions_concat, ← log.indexed]
    split_ifs with h
    · rw [h]
      rfl
    · rw [List.append_nil]

def pushAll (l : List E) : VersionLog K E key := l.foldl push log

theorem entries_pushAll (l : List E) : (log.pushAll l).entries = log.entries ++ l := by
  induction l generalizing log with
  | nil => exact (List.append_nil _).symm
  | cons e l ih =>
    change ((log.push e).pushAll l).entries = _
    rw [ih]
    exact List.append_assoc ..

/-- The last of some positions whose entry satisfies a condition. -/
def latest (entries : List E) (p : E → Bool) (history : List ℕ) : Option E :=
  (history.reverse.filterMap (entries[·]?)).find? p

/-- The last entry with a key that satisfies a condition, by the index. -/
def lookup (p : E → Bool) (k : K) : Option E :=
  (log.index.get k).bind (latest log.entries p)

/-- **The index finds the last entry with the key that satisfies the condition.** -/
theorem lookup_eq (p : E → Bool) (k : K) :
    log.lookup p k = newest key k (log.entries.filter p) := by
  have hlatest : log.lookup p k = latest log.entries p (positions key k log.entries) := by
    rw [lookup, ← log.indexed]
    cases log.index.get k <;> rfl
  rw [hlatest, newest_filter]
  exact find_positions key k p log.entries

end VersionLog
