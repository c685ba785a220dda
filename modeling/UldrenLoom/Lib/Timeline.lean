import Mathlib

/-!
# The change in effect at an instant

A list of changes, each with the instant it takes effect at, in any order.

* **`lastAt_eq_some`**: the scan finds the last change up to an instant.
-/

namespace Timeline

open List Option

variable {K V : Type} [LinearOrder K]

/-- The last change at or before an instant, by a stable sort and a scan. -/
def lastAt (u : K) (l : List (K × V)) : Option (K × V) :=
  ((l.insertionSort fun a b => a.1 ≤ b.1).takeWhile fun x => x.1 ≤ u).getLast?

/-- The change in effect at an instant; the last in the list wins. -/
def LastOf (u : K) (l : List (K × V)) (s : K × V) : Prop :=
  ∃ before after, l = before ++ s :: after ∧ s.1 ≤ u ∧ (∀ x ∈ before, x.1 ≤ u → x.1 ≤ s.1) ∧
    ∀ x ∈ after, x.1 ≤ u → x.1 < s.1

variable {u : K} {a s : K × V} {l : List (K × V)}

theorem LastOf.mem (h : LastOf u l s) : s ∈ l := by
  obtain ⟨l1, l2, rfl, -⟩ := h
  exact mem_append_right _ mem_cons_self

theorem LastOf.le (h : LastOf u l s) : s.1 ≤ u := by
  obtain ⟨l1, l2, rfl, hu, -⟩ := h
  exact hu

theorem LastOf.max (h : LastOf u l s) {x : K × V} (hx : x ∈ l) (hxu : x.1 ≤ u) : x.1 ≤ s.1 := by
  obtain ⟨l1, l2, rfl, -, h1, h2⟩ := h
  rcases mem_append.mp hx with hx | hx
  · exact h1 x hx hxu
  · rcases mem_cons.mp hx with rfl | hx
    · exact le_rfl
    · exact (h2 x hx hxu).le

theorem lastOf_cons : LastOf u (a :: l) s ↔
    (s = a ∧ a.1 ≤ u ∧ ∀ x ∈ l, x.1 ≤ u → x.1 < a.1) ∨ (LastOf u l s ∧ (a.1 ≤ u → a.1 ≤ s.1)) := by
  constructor
  · rintro ⟨l1, l2, h, hu, h1, h2⟩
    cases l1 with
    | nil =>
      cases h
      exact .inl ⟨rfl, hu, h2⟩
    | cons b l1 =>
      cases h
      obtain ⟨hb, h1⟩ := forall_mem_cons.mp h1
      exact .inr ⟨⟨l1, l2, rfl, hu, h1, h2⟩, hb⟩
  · rintro (⟨rfl, hu, h⟩ | ⟨⟨l1, l2, rfl, hu, h1, h2⟩, ha⟩)
    · exact ⟨[], l, rfl, hu, by simp, h⟩
    · exact ⟨a :: l1, l2, rfl, hu, forall_mem_cons.mpr ⟨ha, h1⟩, h2⟩

variable {m : List (K × V)}

theorem LastOf.of_append (h : LastOf u (l ++ m) s) :
    (s ∈ l ∧ ∀ x ∈ m, x.1 ≤ u → x.1 < s.1) ∨ LastOf u m s := by
  induction l with
  | nil => exact .inr h
  | cons a l ih =>
    rcases lastOf_cons.mp h with ⟨rfl, -, hlt⟩ | ⟨h, -⟩
    · exact .inl ⟨mem_cons_self, fun x hx => hlt x (mem_append_right _ hx)⟩
    · exact (ih h).imp_left fun hs => ⟨mem_cons_of_mem _ hs.1, hs.2⟩

/-- The last change of a sorted list up to an instant. -/
def scan (u : K) (m : List (K × V)) : Option (K × V) := (m.takeWhile fun x => x.1 ≤ u).getLast?

theorem scan_cons : scan u (a :: l) = if a.1 ≤ u then some ((scan u l).getD a) else none := by
  unfold scan
  rw [takeWhile_cons]
  by_cases h : a.1 ≤ u
  · rw [if_pos h, if_pos (by simpa), List.getLast?_cons]
  · rw [if_neg h, if_neg (by simpa using h)]
    rfl

theorem scan_mem (h : scan u m = some s) : s ∈ m :=
  takeWhile_subset _ (mem_of_getLast? h)

theorem scan_eq_none (hm : m.Pairwise fun x y => x.1 ≤ y.1) :
    scan u m = none ↔ ∀ x ∈ m, u < x.1 := by
  cases m with
  | nil => simp [scan]
  | cons b m =>
    rw [scan_cons, forall_mem_cons]
    split_ifs with h
    · simp [h]
    · have hb := not_le.mp h
      simp only [true_iff]
      exact ⟨hb, fun x hx => hb.trans_le (rel_of_pairwise_cons hm hx)⟩

theorem scan_orderedInsert (hm : m.Pairwise fun x y => x.1 ≤ y.1) :
    scan u (m.orderedInsert (fun x y => x.1 ≤ y.1) a) =
      if a.1 ≤ u then some ((scan u m).elim a fun s => if a.1 ≤ s.1 then s else a)
      else scan u m := by
  induction m with
  | nil => rw [orderedInsert_nil, scan_cons]; rfl
  | cons b m ih =>
    rw [orderedInsert_cons]
    by_cases hab : a.1 ≤ b.1
    · -- the change is put in front, and all others are as late
      rw [if_pos hab, scan_cons]
      split_ifs with hau
      · cases hs : scan u (b :: m) with
        | none => rfl
        | some s =>
          have has : a.1 ≤ s.1 := by
            rcases mem_cons.mp (scan_mem hs) with rfl | hmem
            · exact hab
            · exact hab.trans (rel_of_pairwise_cons hm hmem)
          rw [getD_some, elim_some, if_pos has]
      · rw [scan_cons, if_neg fun hbu => hau (hab.trans hbu)]
    · rw [if_neg hab, scan_cons, scan_cons, ih hm.of_cons]
      by_cases hbu : b.1 ≤ u
      · rw [if_pos hbu, if_pos hbu]
        split_ifs with hau
        · cases hs : scan u m with
          | none => rw [getD_some, elim_none, getD_none, elim_some, if_neg hab]
          | some s => rfl
        · rfl
      · have hau : ¬ a.1 ≤ u := fun h => hbu ((not_le.mp hab).le.trans h)
        rw [if_neg hbu, if_neg hbu, if_neg hau]

theorem pairwise_sort (l : List (K × V)) :
    (l.insertionSort fun x y => x.1 ≤ y.1).Pairwise fun x y => x.1 ≤ y.1 := by
  have : Std.Total fun x y : K × V => x.1 ≤ y.1 := ⟨fun x y => le_total x.1 y.1⟩
  have : IsTrans (K × V) fun x y => x.1 ≤ y.1 := ⟨fun _ _ _ => le_trans⟩
  exact pairwise_insertionSort _ l

theorem lastAt_cons : lastAt u (a :: l) =
    if a.1 ≤ u then some ((lastAt u l).elim a fun s => if a.1 ≤ s.1 then s else a)
    else lastAt u l := scan_orderedInsert (pairwise_sort l)

theorem lastAt_eq_none : lastAt u l = none ↔ ∀ x ∈ l, u < x.1 := by
  change scan u _ = none ↔ _
  rw [scan_eq_none (pairwise_sort l)]
  simp only [(perm_insertionSort _ l).mem_iff]

/-- **The scan finds the change in effect.** -/
theorem lastAt_eq_some : lastAt u l = some s ↔ LastOf u l s := by
  induction l generalizing s with
  | nil =>
    refine ⟨fun h => (nomatch h), ?_⟩
    rintro ⟨l1, l2, h, -⟩
    cases l1 <;> cases h
  | cons a l ih =>
    rw [lastAt_cons, lastOf_cons, ← ih]
    by_cases hau : a.1 ≤ u
    · rw [if_pos hau, Option.some.injEq]
      cases hl : lastAt u l with
      | none =>
        have hlate := lastAt_eq_none.mp hl
        rw [elim_none]
        constructor
        · rintro rfl
          exact .inl ⟨rfl, hau, fun x hx hxu => absurd hxu (not_le.mpr (hlate x hx))⟩
        · rintro (⟨rfl, -⟩ | ⟨h, -⟩)
          · rfl
          · cases h
      | some m =>
        have hm := ih.mp hl
        rw [elim_some, Option.some.injEq]
        split_ifs with ham
        · constructor
          · rintro rfl
            exact .inr ⟨rfl, fun _ => ham⟩
          · rintro (⟨-, -, h⟩ | ⟨rfl, -⟩)
            · exact absurd (h m hm.mem hm.le) (not_lt.mpr ham)
            · rfl
        · constructor
          · rintro rfl
            exact .inl ⟨rfl, hau, fun x hx hxu => (hm.max hx hxu).trans_lt (not_le.mp ham)⟩
          · rintro (⟨rfl, -⟩ | ⟨rfl, h⟩)
            · rfl
            · exact absurd (h hau) ham
    · rw [if_neg hau]
      constructor
      · exact fun h => .inr ⟨h, fun h' => absurd h' hau⟩
      · rintro (⟨-, h, -⟩ | ⟨h, -⟩)
        · exact absurd h hau
        · exact h

end Timeline
