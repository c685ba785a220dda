import Mathlib

/-!
# Encodings that can be told apart

Every value is written in front of a list of numbers, such that two such lists are equal only if the
values and what follows them are.

* **`Serial.ser_injective`**: the encoding is injective.
-/

/-- An encoding that can be told apart from what follows it. -/
class Serial (α : Type) where
  ser : α → List ℕ → List ℕ
  parse : ∀ {a b : α} {s t : List ℕ}, ser a s = ser b t → a = b ∧ s = t

namespace Serial

variable {α β : Type}

theorem ser_injective [Serial α] (s : List ℕ) : Function.Injective fun a : α => ser a s :=
  fun _ _ h => (parse h).1

/-- The encoding of a type that embeds into another. -/
@[reducible] def ofInjective [Serial β] (f : α → β) (hf : Function.Injective f) : Serial α where
  ser a := ser (f a)
  parse h := ⟨hf (parse h).1, (parse h).2⟩

instance : Serial ℕ where
  ser := List.cons
  parse := List.cons.inj

instance : Serial Char := ofInjective Char.toNat fun _ _ => Char.toNat_inj.mp

instance : Serial UInt8 := ofInjective UInt8.toNat fun _ _ => UInt8.toNat_inj.mp

instance : Serial UInt32 := ofInjective UInt32.toNat fun _ _ => UInt32.toNat_inj.mp

instance : Serial UInt64 := ofInjective UInt64.toNat fun _ _ => UInt64.toNat_inj.mp

instance [Serial α] [Serial β] : Serial (α × β) where
  ser p s := ser p.1 (ser p.2 s)
  parse h := by
    obtain ⟨h1, h⟩ := parse h
    obtain ⟨h2, h⟩ := parse h
    exact ⟨Prod.ext h1 h2, h⟩

instance [Serial α] [Serial β] : Serial (α ⊕ β) where
  ser x s := x.elim (fun a => 0 :: ser a s) fun b => 1 :: ser b s
  parse {x y _ _} h := by
    rcases x with a | a <;> rcases y with b | b <;> obtain ⟨htag, h⟩ := List.cons.inj h
    · exact (parse h).imp_left (congrArg Sum.inl)
    · exact absurd htag (by decide)
    · exact absurd htag (by decide)
    · exact (parse h).imp_left (congrArg Sum.inr)

theorem parse_foldr [Serial α] {xs ys : List α} (hl : xs.length = ys.length) {s t : List ℕ}
    (h : xs.foldr ser s = ys.foldr ser t) : xs = ys ∧ s = t := by
  induction xs generalizing ys with
  | nil =>
    obtain rfl := List.length_eq_zero_iff.mp hl.symm
    exact ⟨rfl, h⟩
  | cons x xs ih =>
    cases ys with
    | nil => simp at hl
    | cons y ys =>
      obtain ⟨rfl, h'⟩ := parse h
      obtain ⟨rfl, rfl⟩ := ih (by simpa using hl) h'
      exact ⟨rfl, rfl⟩

/-- A list is its length and its elements. -/
instance [Serial α] : Serial (List α) where
  ser xs s := xs.length :: xs.foldr ser s
  parse h := parse_foldr (List.cons.inj h).1 (List.cons.inj h).2

instance : Serial String := ofInjective String.toList fun _ _ => String.toList_inj.mp

end Serial
