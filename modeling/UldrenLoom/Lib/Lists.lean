import Mathlib

/-!
# Lists related element by element
-/

set_option linter.unusedSectionVars false

namespace Lists

open List

variable {α β : Type} {R : α → β → Prop} {r : α → α → Prop} {s : β → β → Prop}
  [DecidableRel r] [DecidableRel s]

variable {l : List α} {m : List β}

theorem forall₂_orderedInsert (hrs : ∀ a a' b b', R a b → R a' b' → (r a a' ↔ s b b')) {a : α}
    {b : β} (hab : R a b) (h : List.Forall₂ R l m) :
    List.Forall₂ R (l.orderedInsert r a) (m.orderedInsert s b) := by
  induction h with
  | nil => exact .cons hab .nil
  | @cons a' b' l m h' hlm ih =>
    simp only [orderedInsert_cons, hrs _ _ _ _ hab h']
    split_ifs
    · exact .cons hab (.cons h' hlm)
    · exact .cons h' ih

/-- **Sorting keeps two lists related**, if related elements compare alike. -/
theorem forall₂_insertionSort (hrs : ∀ a a' b b', R a b → R a' b' → (r a a' ↔ s b b'))
    (h : List.Forall₂ R l m) : List.Forall₂ R (l.insertionSort r) (m.insertionSort s) := by
  induction h with
  | nil => exact .nil
  | cons hab _ ih =>
    rw [insertionSort_cons, insertionSort_cons]
    exact forall₂_orderedInsert hrs hab ih

theorem forall₂_split {l' : List α} (h : List.Forall₂ R (l ++ l') m) :
    ∃ n n', m = n ++ n' ∧ List.Forall₂ R l n ∧ List.Forall₂ R l' n' := by
  induction l generalizing m with
  | nil => exact ⟨[], m, rfl, .nil, h⟩
  | cons a l ih =>
    obtain ⟨b, m, hab, hm, rfl⟩ := forall₂_cons_left_iff.mp h
    obtain ⟨n, n', rfl, hn, hn'⟩ := ih hm
    exact ⟨b :: n, n', rfl, .cons hab hn, hn'⟩

theorem exists_mem_of_forall₂ (h : List.Forall₂ R l m) {b : β} (hb : b ∈ m) : ∃ a ∈ l, R a b := by
  induction h with
  | nil => cases hb
  | cons hab _ ih =>
    rcases mem_cons.mp hb with rfl | hb
    · exact ⟨_, mem_cons_self, hab⟩
    · obtain ⟨a, ha, hr⟩ := ih hb
      exact ⟨a, mem_cons_of_mem _ ha, hr⟩

theorem forall₂_trans {γ : Type} {S : β → γ → Prop} {n : List γ} (h : List.Forall₂ R l m)
    (h' : List.Forall₂ S m n) : List.Forall₂ (fun a c => ∃ b, R a b ∧ S b c) l n := by
  induction h generalizing n with
  | nil =>
    cases h'
    exact .nil
  | cons hab _ ih =>
    cases h' with
    | cons hbc h' => exact .cons ⟨_, hab, hbc⟩ (ih h')

theorem forall₂_flatten {as : List α} {bss : List (List β)} (h : List.Forall₂ R as bss.flatten) :
    ∃ ass : List (List α), List.Forall₂ (List.Forall₂ R) ass bss ∧ ass.flatten = as := by
  induction bss generalizing as with
  | nil =>
    cases h
    exact ⟨[], .nil, rfl⟩
  | cons bs bss ih =>
    obtain ⟨as₁, as₂, rfl, h1, h2⟩ := forall₂_split h.flip
    obtain ⟨ass, hass, rfl⟩ := ih h2.flip
    exact ⟨as₁ :: ass, .cons h1.flip hass, rfl⟩

theorem eq_of_map_eq {γ : Type} {f : α → γ} {m : List α}
    (hf : ∀ a ∈ l, ∀ b ∈ m, f a = f b → a = b) (h : l.map f = m.map f) : l = m := by
  induction l generalizing m with
  | nil => exact (map_eq_nil_iff.mp h.symm).symm
  | cons a l ih =>
    cases m with
    | nil => exact absurd h (cons_ne_nil _ _)
    | cons b m =>
      obtain ⟨hab, h⟩ := List.cons.inj h
      have hlm := ih (fun a' ha b' hb => hf a' (by simp [ha]) b' (by simp [hb])) h
      rw [hf a (by simp) b (by simp) hab, hlm]

theorem map_filterMap_eq_filter {f : α → Option β} {g : β → α}
    (h : ∀ a ∈ l, ∀ b, f a = some b → g b = a) :
    (l.filterMap f).map g = l.filter fun a => (f a).isSome := by
  induction l with
  | nil => rfl
  | cons a l ih =>
    have ih := ih fun x hx => h x (mem_cons_of_mem a hx)
    cases hf : f a with
    | none => simp [hf, ih]
    | some b => simp [hf, ih, h a (mem_cons_self ..) b hf]

end Lists
