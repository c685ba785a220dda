import Mathlib

/-!
# Fallible computations

How a chain of `Except` computations succeeds: each link does, and hands its result to the next.

* **`mapM_eq_ok`**: a map succeeds exactly when all its elements do.
-/

namespace Fallible

open List

variable {ε α β : Type}

@[simp] theorem ok_bind (a : α) (f : α → Except ε β) : (Except.ok a >>= f) = f a := rfl

@[simp] theorem error_bind (e : ε) (f : α → Except ε β) :
    ((Except.error e : Except ε α) >>= f) = .error e := rfl

variable {x : Except ε α} {f : α → Except ε β} {b : β}

/-- **A chain succeeds exactly when both its links do.** -/
theorem bind_eq_ok : (x >>= f) = .ok b ↔ ∃ a, x = .ok a ∧ f a = .ok b := by
  cases x with
  | ok a => simp
  | error e => simp

theorem of_bind (h : (x >>= f) = .ok b) : ∃ a, x = .ok a ∧ f a = .ok b := bind_eq_ok.mp h

variable {e : ε} {a : α}

theorem ite_error_eq_ok {p : Prop} [Decidable p] :
    (if p then .error e else x) = .ok a ↔ ¬ p ∧ x = .ok a := by
  split_ifs with h <;> simp [h]

theorem ite_ok_eq_ok {p : Prop} [Decidable p] {b : α} :
    (if p then .ok a else .error e : Except ε α) = .ok b ↔ p ∧ b = a := by
  split_ifs with h
  · simp [h, eq_comm]
  · simp [h]

theorem mapError_eq_ok {ε' : Type} {f : ε → ε'} : x.mapError f = .ok a ↔ x = .ok a := by
  cases x <;> simp [Except.mapError]

theorem elim_eq_ok {o : Option α} (h : o.elim (Except.error e) Except.ok = .ok a) : o = some a := by
  cases o with
  | none => cases h
  | some b => cases h; rfl

variable {xs : List α}

theorem forM_eq_ok {f : α → Except ε Unit} (h : xs.forM f = .ok ()) : ∀ x ∈ xs, f x = .ok () := by
  induction xs with
  | nil => simp
  | cons x xs ih =>
    obtain ⟨⟨⟩, hx, hxs⟩ := of_bind h
    exact forall_mem_cons.mpr ⟨hx, ih hxs⟩

/-- One list of results after the other, from left to right. -/
def concatMap (f : α → Except ε (List β)) : List α → Except ε (List β)
  | [] => .ok []
  | x :: xs => do
    let ys ← f x
    let zs ← concatMap f xs
    .ok (ys ++ zs)

theorem concatMap_cons (f : α → Except ε (List β)) (x : α) (xs : List α) :
    concatMap f (x :: xs) = f x >>= fun ys => concatMap f xs >>= fun zs => .ok (ys ++ zs) := rfl

variable {γ : Type}

theorem concatMap_of_forall₂ {f : α → Except ε (List β)} {g : γ → List β} {ys : List γ}
    (h : List.Forall₂ (fun y x => f x = .ok (g y)) ys xs) :
    concatMap f xs = .ok (ys.flatMap g) := by
  induction h with
  | nil => rfl
  | cons hxy _ ih => rw [concatMap_cons, hxy, ok_bind, ih, ok_bind, flatMap_cons]

/-- Where every element succeeds, the results make up the elements' results. -/
theorem concatMap_spec {f : α → Except ε (List β)} {g : γ → List β} {P : α → β → Prop}
    {ys : List γ} (h : List.Forall₂ (fun y x => ∃ zs, f x = .ok zs ∧
      zs.Sublist (g y) ∧ ∀ z, z ∈ zs ↔ P x z) ys xs) :
    ∃ zs, concatMap f xs = .ok zs ∧ zs.Sublist (ys.flatMap g) ∧ ∀ z, z ∈ zs ↔ ∃ x ∈ xs, P x z := by
  induction h with
  | nil => exact ⟨[], rfl, List.Sublist.slnil, by simp⟩
  | cons hx _ ih =>
    obtain ⟨zs, hzs, hsub, hmem⟩ := hx
    obtain ⟨ws, hws, hsub', hmem'⟩ := ih
    refine ⟨zs ++ ws, by rw [concatMap_cons, hzs, ok_bind, hws, ok_bind], hsub.append hsub', ?_⟩
    intro z
    rw [mem_append, hmem, hmem', exists_mem_cons_iff]

theorem concatMap_mem {f : α → Except ε (List β)} {out : List β} (h : concatMap f xs = .ok out)
    (hb : b ∈ out) : ∃ x ∈ xs, ∃ ys, f x = .ok ys ∧ b ∈ ys := by
  induction xs generalizing out with
  | nil =>
    cases h
    cases hb
  | cons x xs ih =>
    obtain ⟨ys, hys, h⟩ := of_bind h
    obtain ⟨zs, hzs, h⟩ := of_bind h
    cases h
    rcases mem_append.mp hb with hb | hb
    · exact ⟨x, mem_cons_self, ys, hys, hb⟩
    · obtain ⟨x', hx', hex⟩ := ih hzs hb
      exact ⟨x', mem_cons_of_mem _ hx', hex⟩

theorem exists_concatMap {f : α → Except ε (List β)} {out : List β} (h : concatMap f xs = .ok out)
    {x : α} (hx : x ∈ xs) : ∃ ys, f x = .ok ys ∧ ∀ b ∈ ys, b ∈ out := by
  induction xs generalizing out with
  | nil => cases hx
  | cons y xs ih =>
    obtain ⟨ys, hys, h⟩ := of_bind h
    obtain ⟨zs, hzs, h⟩ := of_bind h
    cases h
    rcases mem_cons.mp hx with rfl | hx
    · exact ⟨ys, hys, fun b hb => mem_append_left _ hb⟩
    · obtain ⟨ws, hws, hsub⟩ := ih hzs hx
      exact ⟨ws, hws, fun b hb => mem_append_right _ (hsub b hb)⟩

variable {ys : List β}

/-- **A map succeeds exactly when all its elements do.** -/
theorem mapM_eq_ok : xs.mapM f = .ok ys ↔ List.Forall₂ (fun x y => f x = .ok y) xs ys := by
  induction xs generalizing ys with
  | nil =>
    rw [mapM_nil, forall₂_nil_left_iff]
    exact ⟨fun h => (Except.ok.inj h).symm, fun h => congrArg Except.ok h.symm⟩
  | cons x xs ih =>
    rw [mapM_cons, forall₂_cons_left_iff]
    constructor
    · intro h
      obtain ⟨y, hy, h⟩ := of_bind h
      obtain ⟨zs, hzs, h⟩ := of_bind h
      exact ⟨y, zs, hy, ih.mp hzs, (Except.ok.inj h).symm⟩
    · rintro ⟨y, zs, hy, hzs, rfl⟩
      exact bind_eq_ok.mpr ⟨y, hy, bind_eq_ok.mpr ⟨zs, ih.mpr hzs, rfl⟩⟩

theorem mapM_mem (h : xs.mapM f = .ok ys) (hb : b ∈ ys) : ∃ a ∈ xs, f a = .ok b := by
  have hall := mapM_eq_ok.mp h
  clear h
  induction hall with
  | nil => cases hb
  | cons hxy _ ih =>
    rcases mem_cons.mp hb with rfl | hb
    · exact ⟨_, mem_cons_self, hxy⟩
    · obtain ⟨a, ha, hab⟩ := ih hb
      exact ⟨a, mem_cons_of_mem _ ha, hab⟩

theorem exists_mem_of_mapM (h : xs.mapM f = .ok ys) (ha : a ∈ xs) : ∃ b ∈ ys, f a = .ok b := by
  have hall := mapM_eq_ok.mp h
  clear h
  induction hall with
  | nil => cases ha
  | cons hxy _ ih =>
    rcases mem_cons.mp ha with rfl | ha
    · exact ⟨_, mem_cons_self, hxy⟩
    · obtain ⟨b, hb, hab⟩ := ih ha
      exact ⟨b, mem_cons_of_mem _ hb, hab⟩

theorem mapM_map_ok {g : γ → α} {h : γ → β} {zs : List γ} (hf : ∀ z ∈ zs, f (g z) = .ok (h z)) :
    (zs.map g).mapM f = .ok (zs.map h) := by
  refine mapM_eq_ok.mpr (forall₂_map_left_iff.mpr (forall₂_map_right_iff.mpr ?_))
  exact forall₂_same.mpr hf

theorem mapM_of_ok (ys : List β) {g : β → α} (h : ∀ y ∈ ys, f (g y) = .ok y) :
    (ys.map g).mapM f = .ok ys := by
  refine mapM_eq_ok.mpr (forall₂_map_left_iff.mpr (forall₂_same.mpr h))

theorem eq_map_of_mapM {g : α → β} (hf : ∀ x y, f x = .ok y → y = g x) (h : xs.mapM f = .ok ys) :
    ys = xs.map g := by
  have hall : List.Forall₂ (fun x y => g x = y) xs ys :=
    (mapM_eq_ok.mp h).imp fun x y hxy => (hf x y hxy).symm
  rw [← forall₂_map_left_iff (f := g) (R := (· = ·)), forall₂_eq_eq_eq] at hall
  exact hall.symm

/-- A map over the same elements in another order gives the same results in another order. -/
theorem mapM_of_perm {xs' : List α} (hp : xs'.Perm xs) (h : xs.mapM f = .ok ys) :
    ∃ ys', xs'.mapM f = .ok ys' ∧ ys'.Perm ys := by
  obtain ⟨ys', h', hperm⟩ := perm_comp_forall₂ hp (mapM_eq_ok.mp h)
  exact ⟨ys', mapM_eq_ok.mpr h', hperm⟩

theorem foldlM_cons_ok {f : β → α → Except ε β} {c : β} {x : α} (h : f b x = .ok c) :
    (x :: xs).foldlM f b = xs.foldlM f c := by rw [foldlM_cons, h, ok_bind]

theorem foldlM_of_ok {f : α → Except ε γ} {g : β → α → γ → β} {h : α → γ}
    (hf : ∀ x ∈ xs, f x = .ok (h x)) (b : β) :
    xs.foldlM (fun b x => f x >>= fun c => Except.ok (g b x c)) b =
      .ok (xs.foldl (fun b x => g b x (h x)) b) := by
  induction xs generalizing b with
  | nil => rfl
  | cons x xs ih =>
    rw [foldlM_cons, hf x (by simp), ok_bind, ok_bind, foldl_cons]
    exact ih (fun y hy => hf y (by simp [hy])) _

theorem foldlM_ok_mem {f : β → α → Except ε β} {c : β} (h : xs.foldlM f b = .ok c) {x : α}
    (hx : x ∈ xs) : ∃ b' c', f b' x = .ok c' := by
  induction xs generalizing b with
  | nil => simp at hx
  | cons y xs ih =>
    rw [foldlM_cons] at h
    obtain ⟨b', hb', h'⟩ := of_bind h
    rcases mem_cons.mp hx with rfl | hx
    · exact ⟨b, b', hb'⟩
    · exact ih h' hx

theorem foldlM_congr {f g : β → α → Except ε β} (h : ∀ x ∈ xs, ∀ b, f b x = g b x) (b : β) :
    xs.foldlM f b = xs.foldlM g b := by
  induction xs generalizing b with
  | nil => rfl
  | cons x xs ih =>
    rw [foldlM_cons, foldlM_cons, h x (by simp) b]
    exact bind_congr fun c => ih (fun y hy => h y (by simp [hy])) c

/-- A fold with a step that fails has the error of one of its steps. -/
theorem foldlM_of_error {f : α → Except ε γ} {g : β → α → γ → β} {x : α} (hx : x ∈ xs)
    (he : f x = .error e) (b : β) :
    ∃ y ∈ xs, ∃ e', f y = .error e' ∧
      xs.foldlM (fun b x => f x >>= fun c => Except.ok (g b x c)) b = .error e' := by
  induction xs generalizing b with
  | nil => simp at hx
  | cons y xs ih =>
    rw [foldlM_cons]
    cases hy : f y with
    | error e' => exact ⟨y, mem_cons_self .., e', hy, rfl⟩
    | ok c =>
      rcases mem_cons.mp hx with rfl | hx
      · rw [he] at hy
        exact absurd hy (by simp)
      · obtain ⟨z, hz, hrest⟩ := ih hx (g b y c)
        exact ⟨z, mem_cons_of_mem y hz, hrest⟩

/-! ## Values and errors -/

/-- `P` holds of the value, or `E` of the error. -/
def Ends (P : α → Prop) (E : ε → Prop) : Except ε α → Prop
  | .ok a => P a
  | .error e => E e

namespace Ends

variable {P : α → Prop} {Q : β → Prop} {E : ε → Prop} {x : Except ε α}

theorem bind {f : α → Except ε β} (hx : Ends P E x) (hf : ∀ a, P a → Ends Q E (f a)) :
    Ends Q E (x >>= f) := by
  cases x with
  | ok a => exact hf a hx
  | error e => exact hx

theorem imp {P' : α → Prop} {E' : ε → Prop} (hx : Ends P E x) (h : ∀ a, P a → P' a)
    (hE : ∀ e, E e → E' e) : Ends P' E' x := by
  cases x with
  | ok a => exact h a hx
  | error e => exact hE e hx

theorem of_ok {a : α} (hx : Ends P E x) (h : x = .ok a) : P a := by
  rw [h] at hx
  exact hx

theorem of_error {e : ε} (hx : Ends P E x) (h : x = .error e) : E e := by
  rw [h] at hx
  exact hx

theorem mapM {f : α → Except ε β} {R : α → β → Prop} {xs : List α}
    (h : ∀ x ∈ xs, Ends (R x) E (f x)) : Ends (List.Forall₂ R xs) E (xs.mapM f) := by
  induction xs with
  | nil => exact List.Forall₂.nil
  | cons x xs ih =>
    rw [mapM_cons]
    refine (h x (by simp)).bind fun y hy => (ih fun z hz => h z (by simp [hz])).bind fun ys hys => ?_
    exact List.Forall₂.cons hy hys

end Ends

end Fallible
