import Mathlib

/-!
# Paths, subtrees and namespaces

A path is a list of symbols in which a separator ends the name of a parent. A namespace is a set of
file paths and a set of directory paths.

* **`under_or_under`**: two paths above a third are comparable.
* **`Names.wellFormed_edit_iff`**: an edit keeps a namespace well-formed exactly if no directory is
  added where a file stays.
-/

namespace Subtree

variable {α : Type} (sep : α)

/-- `p` is below `a`. -/
def Under (a p : List α) : Prop := a ++ [sep] <+: p

def AtOrUnder (a p : List α) : Prop := p = a ∨ Under sep a p

instance [DecidableEq α] (a p : List α) : Decidable (Under sep a p) :=
  inferInstanceAs (Decidable (_ <+: _))

instance [DecidableEq α] (a p : List α) : Decidable (AtOrUnder sep a p) :=
  inferInstanceAs (Decidable (_ ∨ _))

variable {sep} {a b c p s d : List α}

theorem under_iff : Under sep a p ↔ ∃ x, p = a ++ sep :: x := by
  constructor
  · rintro ⟨x, rfl⟩
    exact ⟨x, by simp⟩
  · rintro ⟨x, rfl⟩
    exact ⟨x, by simp⟩

theorem atOrUnder_iff : AtOrUnder sep a p ↔ p = a ∨ ∃ x, p = a ++ sep :: x := by
  rw [AtOrUnder, under_iff]

theorem atOrUnder_refl (a : List α) : AtOrUnder sep a a := .inl rfl

theorem Under.length_lt (h : Under sep a p) : a.length < p.length := by
  have := h.length_le
  rw [List.length_append, List.length_singleton] at this
  omega

theorem not_under_self : ¬ Under sep a a := fun h => (lt_irrefl _) h.length_lt

theorem Under.trans_at (h : Under sep a b) (h' : AtOrUnder sep b p) : Under sep a p := by
  rcases h' with rfl | h'
  · exact h
  · obtain ⟨x, rfl⟩ := under_iff.mp h
    obtain ⟨y, rfl⟩ := under_iff.mp h'
    exact under_iff.mpr ⟨x ++ sep :: y, by simp⟩

theorem AtOrUnder.trans_under (h : AtOrUnder sep a b) (h' : Under sep b p) : Under sep a p := by
  rcases h with rfl | h
  · exact h'
  · exact h.trans_at (.inr h')

/-- **Two paths above a third are comparable.** -/
theorem under_or_under (h : AtOrUnder sep a p) (h' : AtOrUnder sep b p) :
    AtOrUnder sep a b ∨ Under sep b a := by
  rcases h with rfl | h
  · rcases h' with rfl | h'
    · exact .inl (.inl rfl)
    · exact .inr h'
  · rcases h' with rfl | h'
    · exact .inl (.inr h)
    · obtain ⟨x, rfl⟩ := under_iff.mp h
      obtain ⟨y, hy⟩ := under_iff.mp h'
      rcases List.append_eq_append_iff.mp hy with ⟨z, rfl, hz⟩ | ⟨z, rfl, hz⟩
      · cases z with
        | nil => exact .inl (.inl (by simp))
        | cons w z =>
          obtain ⟨rfl, -⟩ := List.cons.inj hz
          exact .inl (.inr (under_iff.mpr ⟨z, rfl⟩))
      · cases z with
        | nil => exact .inl (.inl (by simp))
        | cons w z =>
          obtain ⟨rfl, -⟩ := List.cons.inj hz
          exact .inr (under_iff.mpr ⟨z, rfl⟩)

/-- The path `p`, moved from below `s` to below `d`. -/
def relocate (s d p : List α) : List α := d ++ p.drop s.length

@[simp] theorem relocate_self (s d : List α) : relocate s d s = d := by simp [relocate]

@[simp] theorem relocate_append (s d x : List α) : relocate s d (s ++ x) = d ++ x := by
  simp [relocate]

end Subtree

open Subtree

/-- The file paths and the directory paths of a namespace. -/
structure Names (α : Type) where
  files : Set (List α)
  dirs : Set (List α)

namespace Names

variable {α : Type} (sep : α)

/-- No path is a file and a directory, and everything above a path is a directory. -/
structure WellFormed (N : Names α) : Prop where
  disjoint : ∀ p ∈ N.files, p ∉ N.dirs
  closed : ∀ p, p ∈ N.files ∨ p ∈ N.dirs → ∀ a, Under sep a p → a ∈ N.dirs

/-- Paths, and what is above them. -/
def upward (T : Set (List α)) : Set (List α) := {a | ∃ t ∈ T, AtOrUnder sep a t}

/-- Add the directories of `T` with those above them and the files of `W`; remove `R` and `Q`. -/
def edit (N : Names α) (T W R Q : Set (List α)) : Names α :=
  ⟨(N.files ∪ W) \ R, (N.dirs ∪ upward sep T) \ Q⟩

variable {sep} {N : Names α} {T W R Q : Set (List α)}

theorem WellFormed.not_under (h : WellFormed sep N) {p q : List α} (hp : p ∈ N.files)
    (hq : q ∈ N.files ∨ q ∈ N.dirs) : ¬ Under sep p q :=
  fun hu => h.disjoint p hp (h.closed q hq p hu)

theorem upward_closed {a b : List α} (ha : a ∈ upward sep T) (hb : Under sep b a) :
    b ∈ upward sep T := by
  obtain ⟨t, ht, hat⟩ := ha
  exact ⟨t, ht, .inr (hb.trans_at hat)⟩

/-- **When an edit keeps a namespace well-formed.** -/
theorem wellFormed_edit_iff (h : WellFormed sep N)
    (hW : ∀ p ∈ W, p ∉ N.dirs ∪ upward sep T ∧ ∀ a, Under sep a p → a ∈ N.dirs ∪ upward sep T)
    (hQ : ∀ a ∈ Q, ∀ q, Under sep a q → q ∈ R ∧ q ∈ Q) :
    WellFormed sep (N.edit sep T W R Q) ↔ ∀ a ∈ upward sep T, a ∈ N.files → a ∈ Q ∨ a ∈ R := by
  constructor
  · intro h' a ha hfile
    by_contra hout
    rw [not_or] at hout
    exact h'.disjoint a ⟨.inl hfile, hout.2⟩ ⟨.inr ha, hout.1⟩
  · intro hclear
    refine ⟨?_, ?_⟩
    · rintro p ⟨hp | hp, hR⟩ ⟨hd | hd, hn⟩
      · exact h.disjoint p hp hd
      · exact (hclear p hd hp).elim hn hR
      · exact (hW p hp).1 (.inl hd)
      · exact (hW p hp).1 (.inr hd)
    · intro p hp a ha
      have habove : a ∈ N.dirs ∪ upward sep T := by
        rcases hp with ⟨hp | hp, -⟩ | ⟨hp | hp, -⟩
        · exact .inl (h.closed p (.inl hp) a ha)
        · exact (hW p hp).2 a ha
        · exact .inl (h.closed p (.inr hp) a ha)
        · exact .inr (upward_closed hp ha)
      refine ⟨habove, fun hQa => ?_⟩
      obtain ⟨hR, hQp⟩ := hQ a hQa p ha
      exact hp.elim (fun h => h.2 hR) fun h => h.2 hQp

end Names
