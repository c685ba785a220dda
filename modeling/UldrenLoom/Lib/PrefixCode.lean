import Mathlib

/-!
# Order-preserving prefix codes

Two words are `Separated` if they are equal or part at some position: whatever follows them, they
are equal as soon as the whole strings are.

* **`compareLex_flatMap`**: a prefix-free code compares concatenations as the lists they encode.
-/

namespace PrefixCode

open List

variable {α β : Type}

/-- Equal, or different at some position both have. -/
def Separated (x y : List β) : Prop := ∀ s t, x ++ s = y ++ t → x = y

variable {x y : List β}

theorem separated_of_length_eq (h : x.length = y.length) : Separated x y :=
  fun _ _ e => (append_inj e h).1

theorem separated_cons_of_ne {a b : β} (h : a ≠ b) (x y : List β) :
    Separated (a :: x) (b :: y) := fun _ _ e => absurd (List.cons.inj e).1 h

theorem Separated.cons (h : Separated x y) (a : β) :
    Separated (a :: x) (a :: y) := fun s t e => by rw [h s t (List.cons.inj e).2]

theorem Separated.append {x' y' : List β} (h : Separated x y) (h' : x = y → Separated x' y') :
    Separated (x ++ x') (y ++ y') := by
  intro s t e
  rw [append_assoc, append_assoc] at e
  have hxy := h _ _ e
  subst hxy
  rw [h' rfl s t (append_cancel_left e)]

theorem separated_terminated {z : β} (hx : z ∉ x) (hy : z ∉ y) :
    Separated (x ++ [z]) (y ++ [z]) := by
  induction x generalizing y with
  | nil =>
    cases y with
    | nil => exact separated_of_length_eq rfl
    | cons b y => exact separated_cons_of_ne (fun h : z = b => hy (by simp [h])) _ _
  | cons a x ih =>
    cases y with
    | nil => exact separated_cons_of_ne (fun h : a = z => hx (by simp [h])) _ _
    | cons b y =>
      intro s t e
      obtain ⟨rfl, e'⟩ := List.cons.inj e
      have := ih (fun h => hx (mem_cons_of_mem _ h)) (fun h => hy (mem_cons_of_mem _ h)) s t e'
      rw [cons_append, cons_append, this]

/-- No code word is a proper prefix of another. -/
def PrefixFree (f : α → List β) : Prop := ∀ a b, f a <+: f b → f a = f b

variable {f : α → List β}

theorem prefixFree_of_separated (h : ∀ a b, Separated (f a) (f b)) : PrefixFree f := by
  rintro a b ⟨t, ht⟩
  exact h a b t [] (by rw [ht, append_nil])

theorem map_eq_of_flatMap_eq (hf : ∀ a b, Separated (f a) (f b)) (hne : ∀ a, f a ≠ [])
    {p q : List α} (h : p.flatMap f = q.flatMap f) : p.map f = q.map f := by
  induction p generalizing q with
  | nil =>
    cases q with
    | nil => rfl
    | cons b q => exact absurd (append_eq_nil_iff.mp h.symm).1 (hne b)
  | cons a p ih =>
    cases q with
    | nil => exact absurd (append_eq_nil_iff.mp h).1 (hne a)
    | cons b q =>
      rw [flatMap_cons, flatMap_cons] at h
      have hab := hf a b _ _ h
      rw [hab] at h
      rw [map_cons, map_cons, hab, ih (append_cancel_left h)]

variable {cmp : β → β → Ordering} [Std.LawfulEqCmp cmp]

theorem Separated.tail {a : β} (h : Separated (a :: x) (a :: y)) : Separated x y := fun s t e =>
  (List.cons.inj (h s t (by rw [List.cons_append, List.cons_append, e]))).2

/-- **Separated words decide a comparison before what follows them.** -/
theorem compareLex_append_of_separated (h : Separated x y) (s t : List β) :
    List.compareLex cmp (x ++ s) (y ++ t) =
      (List.compareLex cmp x y).then (List.compareLex cmp s t) := by
  induction x generalizing y with
  | nil =>
    cases y with
    | nil => rfl
    | cons b y => exact absurd (h (b :: y) [] (by simp)) (by simp)
  | cons a x ih =>
    cases y with
    | nil => exact absurd (h [] (a :: x) (by simp)) (by simp)
    | cons b y =>
      rw [List.cons_append, List.cons_append, List.compareLex_cons_cons, List.compareLex_cons_cons]
      cases hab : cmp a b with
      | lt => rfl
      | gt => rfl
      | eq =>
        obtain rfl := Std.LawfulEqCmp.eq_of_compare hab
        exact ih h.tail

theorem compareLex_map_anti {f : β → β} (h : Separated x y)
    (hf : ∀ a ∈ x, ∀ b ∈ y, cmp (f a) (f b) = cmp b a) :
    List.compareLex cmp (x.map f) (y.map f) = List.compareLex cmp y x := by
  induction x generalizing y with
  | nil =>
    cases y with
    | nil => rfl
    | cons b y => exact absurd (h (b :: y) [] (by simp)) (by simp)
  | cons a x ih =>
    cases y with
    | nil => exact absurd (h [] (a :: x) (by simp)) (by simp)
    | cons b y =>
      rw [List.map_cons, List.map_cons, List.compareLex_cons_cons, List.compareLex_cons_cons,
        hf a List.mem_cons_self b List.mem_cons_self]
      cases hab : cmp b a with
      | lt => rfl
      | gt => rfl
      | eq =>
        obtain rfl := Std.LawfulEqCmp.eq_of_compare hab
        exact ih h.tail fun a ha c hc =>
          hf a (List.mem_cons_of_mem _ ha) c (List.mem_cons_of_mem _ hc)

omit [Std.LawfulEqCmp cmp] in
theorem compareLex_terminated {cmp' : α → α → Ordering} {f : α → β} {z : β} (hz : cmp z z = .eq)
    {x y : List α} (hf : ∀ a ∈ x, ∀ b ∈ y, cmp (f a) (f b) = cmp' a b)
    (hx : ∀ a ∈ x, cmp (f a) z = .gt) (hy : ∀ b ∈ y, cmp z (f b) = .lt) :
    List.compareLex cmp (x.map f ++ [z]) (y.map f ++ [z]) = List.compareLex cmp' x y := by
  induction x generalizing y with
  | nil =>
    cases y with
    | nil => exact (List.compareLex_cons_cons).trans (by rw [hz]; rfl)
    | cons b y => exact (List.compareLex_cons_cons).trans (by rw [hy b List.mem_cons_self]; rfl)
  | cons a x ih =>
    cases y with
    | nil => exact (List.compareLex_cons_cons).trans (by rw [hx a List.mem_cons_self]; rfl)
    | cons b y =>
      rw [List.map_cons, List.map_cons, List.cons_append, List.cons_append,
        List.compareLex_cons_cons, List.compareLex_cons_cons,
        hf a List.mem_cons_self b List.mem_cons_self, ih
          (fun a ha b hb => hf a (List.mem_cons_of_mem _ ha) b (List.mem_cons_of_mem _ hb))
          (fun a ha => hx a (List.mem_cons_of_mem _ ha))
          (fun b hb => hy b (List.mem_cons_of_mem _ hb))]

/-- **A prefix-free code compares concatenations as the lists they encode.** -/
theorem compareLex_flatMap (hf : ∀ a b, Separated (f a) (f b)) (hne : ∀ a, f a ≠ [])
    (p q : List α) :
    List.compareLex cmp (p.flatMap f) (q.flatMap f) =
      List.compareLex (fun a b => List.compareLex cmp (f a) (f b)) p q := by
  induction p generalizing q with
  | nil =>
    cases q with
    | nil => rfl
    | cons b q =>
      obtain ⟨c, w, hw⟩ := List.exists_cons_of_ne_nil (hne b)
      rw [List.flatMap_cons, hw]
      rfl
  | cons a p ih =>
    cases q with
    | nil =>
      obtain ⟨c, w, hw⟩ := List.exists_cons_of_ne_nil (hne a)
      rw [List.flatMap_cons, hw]
      rfl
    | cons b q =>
      rw [List.flatMap_cons, List.flatMap_cons, compareLex_append_of_separated (hf a b), ih,
        List.compareLex_cons_cons]

end PrefixCode
