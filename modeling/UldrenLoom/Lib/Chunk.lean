import Mathlib

/-!
# Content-defined chunking

A list is cut after every element that satisfies a predicate.

* **`chunk_append`**: a closed part is chunked on its own.
* **`chunk_flatten_iff`**: the run lists that chunking produces, described by their runs.
* **`cuts_cuts`**: chunking the ends of runs once more cuts where both predicates hold.
-/

namespace Chunk

open List

variable {β : Type} (p : β → Bool)

def push (x : β) : List (List β) → List (List β)
  | [] => [[x]]
  | c :: cs => (x :: c) :: cs

/-- Cut a list after every element with `p`. -/
def chunk : List β → List (List β)
  | [] => []
  | x :: xs => if p x then [x] :: chunk xs else push x (chunk xs)

/-- Empty, or ending in an element with `p`. -/
def Closed (xs : List β) : Prop := ∀ x ∈ xs.getLast?, p x = true

variable {p} {xs : List β}

theorem closed_append_of_ne {ys : List β} (h : ys ≠ []) : Closed p (xs ++ ys) ↔ Closed p ys := by
  rw [Closed, Closed, List.getLast?_append_of_ne_nil xs h]

variable {x : β}

theorem closed_cons_of_ne (h : xs ≠ []) : Closed p (x :: xs) ↔ Closed p xs := by
  rw [← singleton_append, closed_append_of_ne h]

theorem closed_singleton : Closed p [x] ↔ p x = true := by simp [Closed]

theorem flatten_push (x : β) (cs : List (List β)) : (push x cs).flatten = x :: cs.flatten := by
  cases cs <;> rfl

variable {cs : List (List β)}

theorem push_append (h : cs ≠ []) (ds : List (List β)) : push x (cs ++ ds) = push x cs ++ ds := by
  cases cs with
  | nil => exact absurd rfl h
  | cons c cs => rfl

theorem flatten_chunk (xs : List β) : (chunk p xs).flatten = xs := by
  induction xs with
  | nil => rfl
  | cons x xs ih =>
    rw [chunk]
    split_ifs
    · rw [flatten_cons, ih]
      rfl
    · rw [flatten_push, ih]

theorem chunk_ne_nil (h : xs ≠ []) : chunk p xs ≠ [] := by
  intro hc
  have hf := flatten_chunk (p := p) xs
  rw [hc] at hf
  exact h hf.symm

/-- **A closed part is chunked on its own.** -/
theorem chunk_append (h : Closed p xs) (ys : List β) :
    chunk p (xs ++ ys) = chunk p xs ++ chunk p ys := by
  induction xs with
  | nil => rfl
  | cons x xs ih =>
    rw [cons_append, chunk, chunk]
    by_cases hn : xs = []
    · subst hn
      have hx := closed_singleton.mp h
      rw [if_pos hx, if_pos hx]
      rfl
    · have hxs := ih ((closed_cons_of_ne hn).mp h)
      rw [hxs]
      split_ifs
      · rfl
      · exact push_append (chunk_ne_nil hn) _

/-! ## The shape of a run list -/

/-- A run: not empty, and cut nowhere before its end. -/
def Run (p : β → Bool) (c : List β) : Prop := c ≠ [] ∧ ∀ x ∈ c.dropLast, p x = false

/-- Runs, all but the last of them closed. -/
def Chunked (p : β → Bool) : List (List β) → Prop
  | [] => True
  | c :: cs => Run p c ∧ (cs ≠ [] → Closed p c) ∧ Chunked p cs

theorem chunk_run {c : List β} (h : Run p c) : chunk p c = [c] := by
  induction c with
  | nil => exact absurd rfl h.1
  | cons x c ih =>
    rw [chunk]
    by_cases hc : c = []
    · subst hc
      split_ifs <;> rfl
    · have hd : (x :: c).dropLast = x :: c.dropLast := dropLast_cons_of_ne_nil hc
      have hx : p x = false := h.2 x (hd ▸ mem_cons_self)
      have hr : Run p c := ⟨hc, fun y hy => h.2 y (hd ▸ mem_cons_of_mem _ hy)⟩
      rw [if_neg (by rw [hx]; decide), ih hr]
      rfl

theorem chunk_flatten (h : Chunked p cs) : chunk p cs.flatten = cs := by
  induction cs with
  | nil => rfl
  | cons c cs ih =>
    obtain ⟨hr, hc, hcs⟩ := h
    by_cases hn : cs = []
    · subst hn
      rw [flatten_cons, flatten_nil, append_nil, chunk_run hr]
    · rw [flatten_cons, chunk_append (hc hn), chunk_run hr, ih hcs]
      rfl

theorem chunked_chunk (xs : List β) : Chunked p (chunk p xs) := by
  induction xs with
  | nil => trivial
  | cons x xs ih =>
    rw [chunk]
    split_ifs with hx
    · exact ⟨⟨cons_ne_nil _ _, by simp⟩, fun _ => closed_singleton.mpr hx, ih⟩
    · cases hc : chunk p xs with
      | nil => exact ⟨⟨cons_ne_nil _ _, by simp⟩, fun h => absurd rfl h, trivial⟩
      | cons c cs =>
        rw [hc] at ih
        obtain ⟨⟨hne, hr⟩, hcl, hcs⟩ := ih
        refine ⟨⟨cons_ne_nil _ _, fun y hy => ?_⟩, fun h => ?_, hcs⟩
        · rw [dropLast_cons_of_ne_nil hne] at hy
          rcases mem_cons.mp hy with rfl | hy
          · exact Bool.eq_false_iff.mpr hx
          · exact hr y hy
        · exact (closed_cons_of_ne hne).mpr (hcl h)

/-- **What chunking produces**: runs, all but the last of them closed. -/
theorem chunk_flatten_iff : chunk p cs.flatten = cs ↔ Chunked p cs :=
  ⟨fun h => h ▸ chunked_chunk _, chunk_flatten⟩

theorem Chunked.run (h : Chunked p cs) {c : List β} (hc : c ∈ cs) : Run p c := by
  induction cs with
  | nil => simp at hc
  | cons d cs ih =>
    rcases mem_cons.mp hc with rfl | hc
    · exact h.1
    · exact ih h.2.2 hc

theorem chunked_append {ds : List (List β)} : Chunked p (cs ++ ds) ↔ Chunked p cs ∧ Chunked p ds ∧
      (ds ≠ [] → ∀ c ∈ cs.getLast?, Closed p c) := by
  induction cs with
  | nil => simp [Chunked]
  | cons c cs ih =>
    rw [cons_append, Chunked, Chunked, ih]
    by_cases hn : cs = []
    · subst hn
      simp [Chunked]
      tauto
    · have : (c :: cs).getLast? = cs.getLast? := List.getLast?_append_of_ne_nil [c] hn
      rw [this]
      have hne : cs ++ ds ≠ [] := by simp [hn]
      simp only [ne_eq, hne, hn, not_false_eq_true, true_implies]
      tauto

theorem forall₂_chunk {γ : Type} {R : β → γ → Prop} {q : γ → Bool} (hR : ∀ x y, R x y → p x = q y)
    {ys : List γ} (h : List.Forall₂ R xs ys) :
    List.Forall₂ (List.Forall₂ R) (chunk p xs) (chunk q ys) := by
  induction h with
  | nil => exact .nil
  | @cons x y xs ys hxy _ ih =>
    rw [chunk, chunk, hR x y hxy]
    split_ifs
    · exact .cons (.cons hxy .nil) ih
    · generalize chunk p xs = cs at ih ⊢
      generalize chunk q ys = ds at ih ⊢
      cases ih with
      | nil => exact .cons (.cons hxy .nil) .nil
      | cons hc hcs => exact .cons (.cons hxy hc) hcs

/-! ## Where the cuts are -/

/-- The elements that end a run: those with `p`, and the last one. -/
def cuts (p : β → Bool) : List β → List β
  | [] => []
  | x :: xs => if p x || xs.isEmpty then x :: cuts p xs else cuts p xs

theorem cuts_ne_nil (h : xs ≠ []) : cuts p xs ≠ [] := by
  induction xs with
  | nil => exact absurd rfl h
  | cons x xs ih =>
    rw [cuts]
    split_ifs with hx
    · exact cons_ne_nil _ _
    · exact ih fun hn => hx (by simp [hn])

theorem isEmpty_cuts (xs : List β) : (cuts p xs).isEmpty = xs.isEmpty := by
  cases xs with
  | nil => rfl
  | cons x xs =>
    rw [isEmpty_eq_false_iff.mpr (cuts_ne_nil (cons_ne_nil x xs))]
    rfl

theorem map_getLast?_push (h : ∀ c ∈ cs, c ≠ []) (hn : cs ≠ []) :
    (push x cs).map List.getLast? = cs.map List.getLast? := by
  cases cs with
  | nil => exact absurd rfl hn
  | cons c cs =>
    have hc := h c mem_cons_self
    rw [push, map_cons, map_cons]
    congr 1
    exact List.getLast?_append_of_ne_nil [x] hc

theorem map_getLast?_chunk (xs : List β) :
    (chunk p xs).map List.getLast? = (cuts p xs).map some := by
  induction xs with
  | nil => rfl
  | cons x xs ih =>
    rw [chunk, cuts]
    by_cases hx : p x = true
    · simp [hx, ih]
    · by_cases hn : xs = []
      · subst hn
        simp [hx, chunk, push, cuts]
      · have hne : ∀ c ∈ chunk p xs, c ≠ [] := fun c hc => ((chunked_chunk xs).run hc).1
        rw [if_neg hx, if_neg (by simp [hx, hn]), map_getLast?_push hne (chunk_ne_nil hn), ih]

/-- **Cutting the ends of runs once more** leaves the elements with both predicates. -/
theorem cuts_cuts (q : β → Bool) (xs : List β) :
    cuts q (cuts p xs) = cuts (fun x => p x && q x) xs := by
  induction xs with
  | nil => rfl
  | cons x xs ih =>
    rw [cuts, cuts.eq_def _ (x :: xs)]
    by_cases hn : xs = []
    · subst hn
      simp [cuts]
    · have he : (cuts p xs).isEmpty = false := by rw [isEmpty_cuts]; simpa using hn
      have hn' : xs.isEmpty = false := by simpa using hn
      cases hp : p x <;> cases hq : q x <;> simp [hp, hq, he, hn', cuts, ih]

theorem cuts_map {γ : Type} (f : γ → β) (xs : List γ) :
    cuts p (xs.map f) = (cuts (fun x => p (f x)) xs).map f := by
  induction xs with
  | nil => rfl
  | cons x xs ih =>
    rw [map_cons, cuts, cuts, isEmpty_map, ih]
    split_ifs <;> rfl

theorem cuts_sublist (p : β → Bool) (xs : List β) : (cuts p xs).Sublist xs := by
  induction xs with
  | nil => exact List.Sublist.slnil
  | cons x xs ih =>
    rw [cuts]
    split_ifs
    · exact ih.cons_cons x
    · exact ih.cons x

theorem mem_cuts (h : x ∈ cuts p xs) : p x = true ∨ xs.getLast? = some x := by
  induction xs with
  | nil => simp [cuts] at h
  | cons y xs ih =>
    rw [cuts] at h
    have hlast : ∀ {z}, xs.getLast? = some z → (y :: xs).getLast? = some z := by
      intro z hz
      have hn : xs ≠ [] := by rintro rfl; simp at hz
      rw [← hz]
      exact List.getLast?_append_of_ne_nil [y] hn
    split_ifs at h with hy
    · rcases mem_cons.mp h with rfl | h
      · rcases Bool.or_eq_true_iff.mp hy with hp | he
        · exact .inl hp
        · rw [isEmpty_iff.mp he]
          exact .inr rfl
      · exact (ih h).imp_right hlast
    · exact (ih h).imp_right hlast

theorem length_cuts_filter_le (r : β → Bool) (xs : List β) :
    (cuts p (xs.filter r)).length ≤ (cuts p xs).length := by
  induction xs with
  | nil => exact le_rfl
  | cons x xs ih =>
    have hle : (cuts p xs).length ≤ (cuts p (x :: xs)).length := by
      rw [cuts]
      split_ifs
      · exact Nat.le_succ _
      · exact le_rfl
    by_cases hr : r x = true
    · rw [filter_cons_of_pos hr, cuts, cuts]
      by_cases hp : p x = true
      · simp [hp, ih]
      · by_cases hf : xs.filter r = []
        · have hpos := length_pos_iff.mpr (cuts_ne_nil (p := p) (cons_ne_nil x xs))
          rw [cuts] at hpos
          rw [hf, if_pos (by simp)]
          exact hpos
        · have hn : xs ≠ [] := fun hn => hf (by rw [hn]; rfl)
          rw [if_neg (by simp [hp, hf]), if_neg (by simp [hp, hn])]
          exact ih
    · rw [filter_cons_of_neg hr]
      exact ih.trans hle

end Chunk
