import UldrenLoom.Lib.LevelEdit

/-!
# The root of a level tree

* **`raise_forest`**, **`finish_forest`**: raising the leaves gives the canonical tree, and so does
  raising and collapsing the nodes of any level.
-/

set_option linter.unusedSectionVars false

namespace LevelTree

open Chunk OrdMap List

variable {K V : Type} [Inhabited K] (B : K → ℕ → Bool)

/-- A tree with its level. -/
abbrev Top (K V : Type) := (n : ℕ) × Tree K V n

/-- Add at most `left` levels above a list of trees until one tree remains. -/
def raise : (left n : ℕ) → List (Tree K V n) → Option (Top K V)
  | _, n, [t] => some ⟨n, t⟩
  | 0, _, _ => none
  | left + 1, n, ts => raise left (n + 1) (chunkTrees B n ts)

/-- Take the only child of a node as long as there is only one. -/
def collapse : (n : ℕ) → Tree K V n → Top K V
  | 0, es => ⟨0, es⟩
  | n + 1, ts =>
    match ts with
    | [t] => collapse n t
    | ts => ⟨n + 1, ts⟩

/-- The canonical tree of some entries, at the lowest level with a single node. -/
def IsTop (E : List (K × V)) (T : Top K V) : Prop :=
  forest B T.1 E = [T.2] ∧ ∀ m < T.1, 1 < (forest B m E).length

variable {B}

theorem raise_singleton (left n : ℕ) (t : Tree K V n) : raise B left n [t] = some ⟨n, t⟩ := by
  cases left <;> rfl

variable {n left : ℕ} {ts : List (Tree K V n)}

theorem raise_zero (h : ts.length ≠ 1) : raise B 0 n ts = none := by
  match ts, h with
  | [], _ => rfl
  | _ :: _ :: _, _ => rfl

theorem raise_succ (h : ts.length ≠ 1) :
    raise B (left + 1) n ts = raise B left (n + 1) (chunkTrees B n ts) := by
  match ts, h with
  | [], _ => rfl
  | _ :: _ :: _, _ => rfl

variable {T : Top K V}

theorem raise_induction {P : (n : ℕ) → List (Tree K V n) → Prop} (one : P T.1 [T.2])
    (step : ∀ {n : ℕ} {ts : List (Tree K V n)}, ts.length ≠ 1 → P (n + 1) (chunkTrees B n ts) →
      P n ts)
    (h : raise B left n ts = some T) : P n ts := by
  induction left generalizing n with
  | zero =>
    by_cases h1 : ts.length = 1
    · obtain ⟨t, rfl⟩ := length_eq_one_iff.mp h1
      cases h
      exact one
    · rw [raise_zero h1] at h
      exact absurd h.symm (Option.some_ne_none T)
  | succ left ih =>
    by_cases h1 : ts.length = 1
    · obtain ⟨t, rfl⟩ := length_eq_one_iff.mp h1
      cases h
      exact one
    · rw [raise_succ h1] at h
      exact step h1 (ih h)

theorem raise_contents (h : raise B left n ts = some T) (hf : ∀ t ∈ ts, Full n t) :
    flatten T.1 T.2 = contents n ts ∧ Full T.1 T.2 := by
  refine raise_induction (P := fun n ts => (∀ t ∈ ts, Full n t) →
    flatten T.1 T.2 = contents n ts ∧ Full T.1 T.2) (fun hf => ?_) (fun _ ih hf => ?_) h hf
  · exact ⟨(contents_singleton _).symm, hf _ (mem_singleton_self _)⟩
  · rw [← contents_chunkTrees (B := B)]
    exact ih (full_chunkTrees hf)

theorem raise_cases (h : raise B left n ts = some T) :
    (∃ t, ts = [t] ∧ T = ⟨n, t⟩) ∨ ∃ m us, T = ⟨m + 1, us⟩ ∧ us.length ≠ 1 := by
  refine raise_induction (P := fun n ts => (∃ t, ts = [t] ∧ T = ⟨n, t⟩) ∨
    ∃ m us, T = ⟨m + 1, us⟩ ∧ us.length ≠ 1) (.inl ⟨T.2, rfl, rfl⟩) (fun {n ts} h1 ih => ?_) h
  rcases ih with ⟨us, hus, rfl⟩ | ih
  · have hf := flatten_chunk (p := fun t => B (maxKey n t) (n + 1)) ts
    have hus' : chunk (fun t => B (maxKey n t) (n + 1)) ts = [us] := hus
    rw [hus', flatten_singleton] at hf
    exact .inr ⟨n, us, rfl, by rwa [hf]⟩
  · exact .inr ih

theorem collapse_singleton (t : Tree K V n) : collapse (n + 1) [t] = collapse n t := rfl

theorem collapse_of_length (h : ts.length ≠ 1) : collapse (n + 1) ts = ⟨n + 1, ts⟩ := by
  match ts, h with
  | [], _ => rfl
  | _ :: _ :: _, _ => rfl

variable {E : List (K × V)}

theorem IsTop.canonical (h : IsTop B E T) : Canonical B T.1 [T.2] := h.1 ▸ canonical_forest T.1 E

variable {E : List (K × V)}

theorem IsTop.full {T : Top K V} (h : IsTop B E T) : Full T.1 T.2 :=
  h.canonical.full T.2 (mem_singleton_self _)

theorem IsTop.flatten_eq (h : IsTop B E T) : flatten T.1 T.2 = E := by
  rw [← contents_forest (B := B) T.1 E, h.1, contents_singleton]

theorem IsTop.unique {T' : Top K V} (h : IsTop B E T) (h' : IsTop B E T') : T = T' := by
  obtain ⟨n, t⟩ := T
  obtain ⟨m, u⟩ := T'
  have hl : (forest B n E).length = 1 := by rw [h.1]; rfl
  have hl' : (forest B m E).length = 1 := by rw [h'.1]; rfl
  rcases lt_trichotomy n m with hlt | rfl | hlt
  · have := h'.2 n hlt
    omega
  · obtain rfl : t = u := singleton_inj.mp (h.1.symm.trans h'.1)
    rfl
  · have := h.2 m hlt
    omega

theorem low_succ (hE : E ≠ []) (hlow : ∀ m < n, 1 < (forest B m E).length)
    (h : (forest B n E).length ≠ 1) : ∀ m < n + 1, 1 < (forest B m E).length := by
  intro m hm
  rcases Nat.lt_or_ge m n with hlt | hge
  · exact hlow m hlt
  · obtain rfl : m = n := by omega
    have := length_pos_iff.mpr fun he => hE (forest_eq_nil (B := B) (n := m).mp he)
    omega

/-- **Raising the forest of a level** below which no level has a single node gives the canonical
tree. -/
theorem raise_forest (hE : E ≠ []) : ∀ (left n : ℕ),
    (∀ m < n, 1 < (forest B m E).length) → (forest B (n + left) E).length ≤ 1 →
      ∃ T, raise B left n (forest B n E) = some T ∧ IsTop B E T ∧ n ≤ T.1
  | left, n, hlow, hhigh => by
    by_cases h1 : (forest B n E).length = 1
    · obtain ⟨t, ht⟩ := length_eq_one_iff.mp h1
      exact ⟨⟨n, t⟩, by rw [ht, raise_singleton], ⟨ht, hlow⟩, le_rfl⟩
    · have hlow' := low_succ hE hlow h1
      match left with
      | 0 => exact absurd (hlow' n (Nat.lt_succ_self n)) (not_lt.mpr hhigh)
      | left + 1 =>
        obtain ⟨T, hT, htop, hle⟩ := raise_forest hE left (n + 1) hlow' (by
          rwa [show n + 1 + left = n + (left + 1) by omega])
        exact ⟨T, by rw [raise_succ h1]; exact hT, htop, by omega⟩

theorem isTop_of_raise (hE : E ≠ []) {T : Top K V} : ∀ (left n : ℕ),
    (∀ m < n, 1 < (forest B m E).length) → raise B left n (forest B n E) = some T →
      IsTop B E T ∧ T.1 ≤ n + left
  | left, n, hlow, hr => by
    by_cases h1 : (forest B n E).length = 1
    · obtain ⟨t, ht⟩ := length_eq_one_iff.mp h1
      rw [ht, raise_singleton] at hr
      cases hr
      exact ⟨⟨ht, hlow⟩, Nat.le_add_right n left⟩
    · match left with
      | 0 =>
        rw [raise_zero h1] at hr
        exact absurd hr.symm (Option.some_ne_none T)
      | left + 1 =>
        rw [raise_succ h1] at hr
        obtain ⟨htop, hle⟩ := isTop_of_raise hE left (n + 1) (low_succ hE hlow h1) hr
        exact ⟨htop, by omega⟩

theorem collapse_full : ∀ (n : ℕ) {t : Tree K V n}, Full n t →
    Full (collapse n t).1 (collapse n t).2
  | 0, _, h => h
  | n + 1, ts, h => by
    by_cases h1 : ts.length = 1
    · obtain ⟨t, rfl⟩ := length_eq_one_iff.mp h1
      rw [collapse_singleton]
      exact collapse_full n (h.2 t (by simp))
    · rw [collapse_of_length h1]
      exact h

theorem collapse_flatten : ∀ (n : ℕ) (t : Tree K V n),
    flatten (collapse n t).1 (collapse n t).2 = flatten n t
  | 0, _ => rfl
  | n + 1, ts => by
    by_cases h1 : ts.length = 1
    · obtain ⟨t, rfl⟩ := length_eq_one_iff.mp h1
      rw [collapse_singleton, collapse_flatten n t, flatten_succ, contents_singleton]
    · rw [collapse_of_length h1]

theorem exists_isTop (hE : E ≠ []) (h : (forest B n E).length ≤ 1) :
    ∃ T, IsTop B E T ∧ T.1 ≤ n := by
  have hlow : ∀ m < 0, 1 < (forest B m E).length := fun m hm => absurd hm (Nat.not_lt_zero m)
  obtain ⟨T, hT, -⟩ := raise_forest hE n 0 hlow (by rwa [Nat.zero_add])
  obtain ⟨htop, hle⟩ := isTop_of_raise hE n 0 hlow hT
  exact ⟨T, htop, by omega⟩

theorem collapse_forest : ∀ (n : ℕ) {t : Tree K V n}, forest B n E = [t] →
    IsTop B E (collapse n t)
  | 0, t, h => ⟨h, fun _ hm => absurd hm (Nat.not_lt_zero _)⟩
  | n + 1, ts, h => by
    have hc : Canonical B (n + 1) [ts] := h ▸ canonical_forest (n + 1) E
    have hE : contents n ts = E := by
      rw [← contents_forest (B := B) (n + 1) E, h, contents_singleton]
      rfl
    have hn : forest B n E = ts := hE ▸ canonical_node hc
    by_cases h1 : ts.length = 1
    · obtain ⟨t, rfl⟩ := length_eq_one_iff.mp h1
      rw [collapse_singleton]
      exact collapse_forest n hn
    · have hpos := length_pos_iff.mpr (hc.full ts (by simp)).1
      rw [collapse_of_length h1]
      refine ⟨h, fun m hm => ?_⟩
      have hle := length_forest_le (B := B) (show m ≤ n by exact Nat.le_of_lt_succ hm) E
      rw [hn] at hle
      omega

theorem collapse_isTop : ∀ (n : ℕ) {t : Tree K V n}, IsTop B E ⟨n, t⟩ → collapse n t = ⟨n, t⟩
  | 0, _, _ => rfl
  | n + 1, _, h => (collapse_forest (n + 1) h.1).unique h

/-- **Raising and collapsing the nodes of any level** gives the canonical tree. -/
theorem finish_forest (hE : E ≠ []) {m : ℕ} (hm : n + left = m) (h : (forest B m E).length ≤ 1) :
    ∃ T, raise B left n (forest B n E) = some T ∧ IsTop B E (collapse T.1 T.2) := by
  subst hm
  have hpos : 0 < (forest B n E).length :=
    length_pos_iff.mpr fun he => hE (forest_eq_nil.mp he)
  by_cases h1 : (forest B n E).length = 1
  · obtain ⟨t, ht⟩ := length_eq_one_iff.mp h1
    exact ⟨⟨n, t⟩, by rw [ht, raise_singleton], collapse_forest n ht⟩
  · have hlow : ∀ m < n, 1 < (forest B m E).length := fun m hm => by
      have := length_forest_le (B := B) hm.le E
      omega
    obtain ⟨T, hT, htop, -⟩ := raise_forest hE left n hlow h
    exact ⟨T, hT, by rw [collapse_isTop T.1 htop]; exact htop⟩

theorem collapse_of_raise (hE : E ≠ []) {T : Top K V} (hr : raise B left n (forest B n E) = some T) :
    IsTop B E (collapse T.1 T.2) := by
  by_cases h : (forest B (n + left) E).length ≤ 1
  · obtain ⟨T', hT', htop⟩ := finish_forest hE rfl h
    cases hr.symm.trans hT'
    exact htop
  · have hlow : ∀ m < n, 1 < (forest B m E).length := fun m hm => by
      have := length_forest_le (B := B) (show m ≤ n + left by omega) E
      omega
    have htop := (isTop_of_raise hE left n hlow hr).1
    rwa [collapse_isTop T.1 htop]

end LevelTree
