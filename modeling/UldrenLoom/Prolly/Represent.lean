import UldrenLoom.Prolly.Model
import UldrenLoom.Lib.LevelRoot
import UldrenLoom.Lib.Lists

/-!
# What a digest represents

The level tree below a digest, and what the functions of the model do to it.

* **`height_rep`**, **`entries_rep`**, **`getFrom_rep`**: what the reading functions give.
-/

namespace UldrenLoom.Prolly

open ByteString Fallible LevelTree Chunk OrdMap List Nat

variable {D : Type}

/-! ## Trees in a store -/

/-- The nodes below `d` form the level tree `t`. -/
def Rep (read : D → Result (Node D)) : (n : ℕ) → Tree Bytes Bytes n → D → Prop
  | 0, es, d => read d = .ok (.leaf es)
  | n + 1, ts, d => ∃ ch, read d = .ok (.internal ch) ∧
      List.Forall₂ (fun t c => c.1 = maxKey n t ∧ Rep read n t c.2) ts ch

/-- Each child stands for one of the trees. -/
def RepRun (read : D → Result (Node D)) (n : ℕ) (ts : List (Tree Bytes Bytes n))
    (nodes : ChildRun D) : Prop :=
  List.Forall₂ (fun t c => c.1 = maxKey n t ∧ Rep read n t c.2) ts nodes

/-- The nodes below `d` form a search tree over the entries `E`. -/
def SearchTree (read : D → Result (Node D)) (d : D) (E : List (Bytes × Bytes)) : Prop :=
  ∃ n t, Rep read n t d ∧ Full n t ∧ flatten n t = E ∧ Ascending E

/-- An optional root represents some entries: none if it is absent. -/
def Represents (read : D → Result (Node D)) : Option D → List (Bytes × Bytes) → Prop
  | none, E => E = []
  | some d, E => SearchTree read d E

section Read

variable {read read' : D → Result (Node D)}

theorem Rep.mono (h : ∀ d n, read d = .ok n → read' d = .ok n) : ∀ {n : ℕ} {t : Tree Bytes Bytes n}
    {d : D}, Rep read n t d → Rep read' n t d
  | 0, _, _, hr => h _ _ hr
  | _ + 1, _, _, ⟨ch, hd, hch⟩ =>
    ⟨ch, h _ _ hd, hch.imp fun _ _ hc => ⟨hc.1, Rep.mono h hc.2⟩⟩

variable {n : ℕ} {ts : List (Tree Bytes Bytes n)} {nodes : ChildRun D}

theorem RepRun.mono (h : ∀ d n, read d = .ok n → read' d = .ok n) {n : ℕ}
    {ts : List (Tree Bytes Bytes n)} {nodes : ChildRun D} (hr : RepRun read n ts nodes) :
    RepRun read' n ts nodes := hr.imp fun _ _ hc => ⟨hc.1, hc.2.mono h⟩

theorem RepRun.keys (h : RepRun read n ts nodes) : nodes.map Prod.fst = ts.map (maxKey n) := by
  induction h with
  | nil => rfl
  | cons hc _ ih => rw [map_cons, map_cons, hc.1, ih]

theorem RepRun.maxKeyOf {n : ℕ} {ts : List (Tree Bytes Bytes n)} {nodes : ChildRun D}
    (h : RepRun read n ts nodes) : maxKeyOf nodes = maxKey (n + 1) ts := by
  rw [Prolly.maxKeyOf, maxKey, ← List.getLast?_map, ← List.getLast?_map, h.keys]

variable {d : D} {E es : List (Bytes × Bytes)}

theorem SearchTree.ascending (h : SearchTree read d E) : Ascending E := by
  obtain ⟨_, _, -, -, -, hE⟩ := h
  exact hE

theorem Represents.ascending {root : Option D} {E : List (Bytes × Bytes)}
    (h : Represents read root E) : Ascending E := by
  cases root with
  | none =>
    obtain rfl : E = [] := h
    exact List.Pairwise.nil
  | some d => exact SearchTree.ascending h

/-! ### Reading functions -/

/-- **The height is the level of the tree**, as far as the descent goes. -/
theorem heightFrom_rep : ∀ {n : ℕ} {t : Tree Bytes Bytes n} {d : D} (left h : ℕ), Rep read n t d →
    Full n t → heightFrom read left h d =
      if n < left then .ok (h + n) else .error (.corrupt "prolly tree too deep")
  | n, _, _, 0, h, _, _ => by rw [heightFrom, if_neg (not_lt_zero n)]
  | 0, es, d, left + 1, h, hr, _ => by
    rw [heightFrom, show read d = .ok (.leaf es) from hr, if_pos (succ_pos left)]
    rfl
  | n + 1, ts, d, left + 1, h, ⟨ch, hd, hch⟩, ⟨hne, hf⟩ => by
    obtain ⟨t, ts, rfl⟩ := exists_cons_of_ne_nil hne
    obtain ⟨c, ch, hc, -, rfl⟩ := forall₂_cons_left_iff.mp hch
    rw [heightFrom, hd, ok_bind]
    change heightFrom read left (h + 1) c.2 = _
    rw [heightFrom_rep left (h + 1) hc.2 (hf t (by simp)), add_right_comm h 1 n, add_assoc]
    simp only [succ_lt_succ_iff]

variable {t : Tree Bytes Bytes n}

theorem height_rep (h : Rep read n t d) (hf : Full n t) :
    height read d = if n ≤ maxDepth then .ok n else .error (.corrupt "prolly tree too deep") := by
  rw [height, heightFrom_rep _ _ h hf, Nat.zero_add]
  simp only [Nat.lt_succ_iff]

theorem collectEntries_rep : ∀ {n : ℕ} {t : Tree Bytes Bytes n} {d : D} (left : ℕ), n < left →
    Rep read n t d → collectEntries read left d = .ok (flatten n t)
  | 0, es, d, left + 1, _, hr => by
    rw [collectEntries, show read d = .ok (.leaf es) from hr]
    rfl
  | n + 1, ts, d, left + 1, hlt, ⟨ch, hd, hch⟩ => by
    rw [collectEntries, hd, ok_bind]
    exact concatMap_of_forall₂ (hch.imp fun t c hc =>
      collectEntries_rep left (lt_of_succ_lt_succ hlt) hc.2)

theorem collectEntries_deep : ∀ {n : ℕ} {t : Tree Bytes Bytes n} {d : D} {left : ℕ},
    Rep read n t d → Full n t → left ≤ n →
      collectEntries read left d = .error (.corrupt "prolly tree too deep")
  | _, _, _, 0, _, _, _ => rfl
  | n + 1, ts, d, left + 1, ⟨ch, hd, hch⟩, ⟨hne, hf⟩, hle => by
    obtain ⟨t, ts, rfl⟩ := exists_cons_of_ne_nil hne
    obtain ⟨c, ch, hc, -, rfl⟩ := forall₂_cons_left_iff.mp hch
    rw [collectEntries, hd, ok_bind]
    change concatMap _ (c :: ch) = _
    rw [concatMap_cons, collectEntries_deep hc.2 (hf t (by simp)) (le_of_succ_le_succ hle)]
    rfl

theorem le_maxDepth_of_entries (h : Rep read n t d) (hf : Full n t) (hE : entries read d = .ok E) :
    n ≤ maxDepth := by
  by_contra hlt
  rw [entries, collectEntries_deep h hf (Nat.lt_of_not_le hlt)] at hE
  exact absurd hE (by simp)

/-- **The entries are those of the tree.** -/
theorem entries_rep (h : Rep read n t d) (hn : n ≤ maxDepth) : entries read d = .ok (flatten n t) :=
  collectEntries_rep _ (Nat.lt_succ_iff.mpr hn) h

/-! ### Lookups -/

theorem search_cons (key : Bytes) (e : Bytes × Bytes) (es : List (Bytes × Bytes)) :
    search key (e :: es) = if key ≤ e.1 then if e.1 = key then .ok 0 else .error 0 else
        match search key es with
        | .ok i => .ok (i + 1)
        | .error i => .error (i + 1) := by
  by_cases h : key ≤ e.1
  · simp [search, findIdx_cons, h]
  · rw [if_neg h]
    simp only [search, findIdx_cons, h, decide_false, cond_false, List.getElem?_cons_succ]
    cases es[es.findIdx fun e => decide (key ≤ e.1)]? with
    | none => rfl
    | some x =>
      dsimp only
      split_ifs <;> rfl

theorem get_search (h : Ascending es) (key : Bytes) : (match search key es with
      | .ok i => es[i]?.map Prod.snd
      | .error _ => none) = OrdMap.get key es := by
  induction es with
  | nil => rfl
  | cons e es ih =>
    obtain ⟨hlt, hes⟩ := pairwise_cons.mp h
    rw [search_cons, get_cons]
    by_cases hle : key ≤ e.1
    · rw [if_pos hle]
      by_cases heq : e.1 = key
      · rw [if_pos heq, if_pos heq]
        rfl
      · rw [if_neg heq, if_neg heq]
        refine (get_eq_none.mpr fun c hc hk => ?_).symm
        exact absurd (hk ▸ hlt c hc) (not_lt.mpr hle)
    · have heq : ¬ e.1 = key := fun h => hle h.ge
      rw [if_neg hle, if_neg heq, ← ih hes]
      cases search key es <;> rfl

theorem apply_set (key v : Bytes) (h : Ascending es) :
    (Change.set v).apply key es = OrdMap.insert key v es := by
  induction es with
  | nil => rfl
  | cons e es ih =>
    have hes := (pairwise_cons.mp h).2
    unfold Change.apply at ih ⊢
    rw [search_cons, OrdMap.insert]
    by_cases hle : key ≤ e.1
    · rw [if_pos hle]
      by_cases heq : e.1 = key
      · rw [if_pos heq, if_neg (by simp [heq]), if_pos heq.symm, ← heq]
        rfl
      · rw [if_neg heq, if_pos (lt_of_le_of_ne hle fun he => heq he.symm)]
        rfl
    · rw [if_neg hle, if_neg fun hlt => hle hlt.le, if_neg fun he => hle he.le, ← ih hes]
      cases search key es <;> rfl

theorem apply_remove (key : Bytes) (h : Ascending es) :
    Change.remove.apply key es = OrdMap.erase key es := by
  induction es with
  | nil => rfl
  | cons e es ih =>
    obtain ⟨hlt, hes⟩ := pairwise_cons.mp h
    unfold Change.apply at ih ⊢
    rw [search_cons]
    by_cases hle : key ≤ e.1
    · have hne : ∀ c ∈ es, c.1 ≠ key := fun c hc => (hle.trans_lt (hlt c hc)).ne'
      rw [if_pos hle]
      by_cases heq : e.1 = key
      · subst heq
        rw [if_pos rfl]
        exact (erase_middle (A := []) h).symm
      · rw [if_neg heq, erase_of_ne fun c hc => ?_]
        rcases mem_cons.mp hc with rfl | hc
        · exact heq
        · exact hne c hc
    · have he : OrdMap.erase key (e :: es) = e :: OrdMap.erase key es :=
        filter_cons_of_pos (by simpa using fun he => hle he.ge)
      rw [if_neg hle, he, ← ih hes]
      cases search key es <;> rfl

variable (change : Change)

def Change.on (key : Bytes) (m : List (Bytes × Bytes)) : List (Bytes × Bytes) :=
  match change with
  | .set v => OrdMap.insert key v m
  | .remove => OrdMap.erase key m

theorem apply_eq_on (key : Bytes) (h : Ascending es) : change.apply key es = change.on key es := by
  cases change with
  | set v => exact apply_set key v h
  | remove => exact apply_remove key h

theorem ascending_on (key : Bytes) (h : Ascending es) : Ascending (change.on key es) := by
  cases change with
  | set v => exact ascending_insert h key v
  | remove => exact ascending_erase h key

theorem local_on (key : Bytes) : Local (change.on key) key := by
  cases change with
  | set v => exact local_insert key v
  | remove => exact local_erase key

/-- **A lookup finds the value of the key in the entries**, unless the leaf lies too deep. -/
theorem getFrom_rep (key : Bytes) : ∀ {n : ℕ} {t : Tree Bytes Bytes n} {d : D} (left : ℕ),
    Rep read n t d → Full n t → Ascending (flatten n t) → getFrom read key (left + 1) d =
      if n ≤ left ∨ maxKey n t < key then .ok (OrdMap.get key (flatten n t))
      else .error (.corrupt "prolly tree deeper than the structural maximum")
  | 0, es, d, left, hr, _, hasc => by
    have hasc' : Ascending es := hasc
    have hg := get_search hasc' key
    rw [getFrom, show read d = .ok (.leaf es) from hr, ok_bind, if_pos (.inl (zero_le left)),
      flatten_zero, ← hg]
    dsimp only
    cases search key es <;> rfl
  | n + 1, ts, d, left, ⟨ch, hd, hch⟩, ⟨hne, hf⟩, hasc => by
    rw [getFrom, hd, ok_bind]
    dsimp only
    have hfull : Full (n + 1) ts := ⟨hne, hf⟩
    cases hfind : ch.find? fun c => decide (key ≤ c.1) with
    | none =>
      -- the key is beyond every child
      have hlt : ∀ t ∈ ts, maxKey n t < key := by
        intro t ht
        have hmem : maxKey n t ∈ ch.map Prod.fst := by
          rw [RepRun.keys hch]
          exact mem_map_of_mem ht
        obtain ⟨c, hc, hck⟩ := mem_map.mp hmem
        rw [← hck]
        simpa using List.find?_eq_none.mp hfind c hc
      have hall : ∀ e ∈ contents n ts, e.1 < key := by
        intro e he
        obtain ⟨t, ht, het⟩ := mem_flatMap.mp he
        exact (le_maxKey (hf t ht) (ascending_flatten hasc ht) e het).trans_lt (hlt t ht)
      obtain ⟨e, he, hek⟩ := exists_maxKey hfull
      rw [if_pos (.inr (hek ▸ hall e he)), flatten_succ,
        get_eq_none.mpr fun e he => (hall e he).ne]
    | some c =>
      obtain ⟨hk, l, r, rfl, hl⟩ := List.find?_eq_some_iff_append.mp hfind
      obtain ⟨l', t, r', rfl, hl', hc, hr'⟩ : ∃ l' t r', ts = l' ++ t :: r' ∧ RepRun read n l' l ∧
          (c.1 = maxKey n t ∧ Rep read n t c.2) ∧ RepRun read n r' r := by
        obtain ⟨l', ts', rfl, hl', hts'⟩ := Lists.forall₂_split (List.Forall₂.flip hch)
        obtain ⟨t, r', hc, hr', rfl⟩ := forall₂_cons_left_iff.mp hts'
        exact ⟨l', t, r', rfl, List.Forall₂.flip hl', hc, List.Forall₂.flip hr'⟩
      have htm : t ∈ l' ++ t :: r' := by simp
      have hkt : key ≤ maxKey n t := hc.1 ▸ of_decide_eq_true hk
      have hlt : ∀ u ∈ l', maxKey n u < key := by
        intro u hu
        have hmem : maxKey n u ∈ l.map Prod.fst := by
          rw [hl'.keys]
          exact mem_map_of_mem hu
        obtain ⟨c', hc', hck⟩ := mem_map.mp hmem
        rw [← hck]
        simpa using hl c' hc'
      obtain ⟨hbl, hbr⟩ := route_bounds hf hasc hlt (.inl hkt)
      have hmax : ¬ maxKey (n + 1) (l' ++ t :: r') < key := by
        obtain ⟨e, he, hek⟩ := exists_maxKey (hf t htm)
        have hle := le_maxKey hfull hasc e (mem_flatMap.mpr ⟨t, htm, he⟩)
        exact not_lt.mpr (hkt.trans (hek ▸ hle))
      have hget : OrdMap.get key (flatten (n + 1) (l' ++ t :: r')) = OrdMap.get key (flatten n t) := by
        rw [flatten_succ, contents_append, contents_cons, get_append, get_append,
          get_eq_none.mpr fun e he => (hbl e he).ne, get_eq_none.mpr fun e he => (hbr e he).ne']
        simp
      dsimp only
      cases left with
      | zero => rw [getFrom, if_neg (by simp [hmax])]
      | succ left =>
        rw [getFrom_rep key left hc.2 (hf t htm) (ascending_flatten hasc htm), hget]
        simp only [hmax, not_lt.mpr hkt, or_false, succ_le_succ_iff]

end Read

end UldrenLoom.Prolly
