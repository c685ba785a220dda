import UldrenLoom.Lib.Fallible

/-!
# Effects that keep their state when they fail

An effect reads and writes a state and may fail; the writes made before a failure stay.

* **`exec_bind_eq_ok`**, **`exec_bind_eq_error`**: a chain of two effects.
* **`Guarded.forM`**: what a list of guarded steps does.
-/

/-- Effects on a state `σ` with errors `ε`. -/
abbrev Effect (σ ε α : Type) : Type := ExceptT ε (StateM σ) α

namespace Effect

variable {σ τ ε α β : Type}

def exec (x : Effect σ ε α) (s : σ) : Except ε α × σ := x.run.run s

def ofExec (f : σ → Except ε α × σ) : Effect σ ε α := ExceptT.mk f

/-- An effect on a part of the state. -/
def zoom (get : σ → τ) (set : σ → τ → σ) (x : Effect τ ε α) : Effect σ ε α :=
  ofExec fun s => ((exec x (get s)).1, set s (exec x (get s)).2)

/-- Try effects in turn until one gives a value. -/
def firstSome : List (Effect σ ε (Option α)) → Effect σ ε (Option α)
  | [] => pure none
  | x :: xs => do
    match ← x with
    | some a => pure (some a)
    | none => firstSome xs

@[simp] theorem exec_ofExec (f : σ → Except ε α × σ) (s : σ) : exec (ofExec f) s = f s := rfl

@[simp] theorem exec_pure (a : α) (s : σ) : exec (pure a : Effect σ ε α) s = (.ok a, s) := rfl

@[simp] theorem exec_throw (e : ε) (s : σ) : exec (throw e : Effect σ ε α) s = (.error e, s) := rfl

@[simp] theorem exec_get (s : σ) : exec (get : Effect σ ε σ) s = (.ok s, s) := rfl

@[simp] theorem exec_modify (f : σ → σ) (s : σ) :
    exec (modify f : Effect σ ε Unit) s = (.ok (), f s) := rfl

@[simp] theorem exec_lift (x : Except ε α) (s : σ) : exec (liftM x : Effect σ ε α) s = (x, s) := rfl

@[simp] theorem exec_zoom (get : σ → τ) (set : σ → τ → σ) (x : Effect τ ε α) (s : σ) :
    exec (zoom get set x) s = ((exec x (get s)).1, set s (exec x (get s)).2) := rfl

theorem exec_bind (x : Effect σ ε α) (f : α → Effect σ ε β) (s : σ) : exec (x >>= f) s =
      match exec x s with
      | (.ok a, s') => exec (f a) s'
      | (.error e, s') => (.error e, s') := by
  simp only [exec, ExceptT.run_bind, StateT.run_bind]
  rcases StateT.run (ExceptT.run x) s with ⟨r, s'⟩
  cases r <;> rfl

variable {x : Effect σ ε α} {s t : σ} {a : α}

theorem exec_bind_of_ok {s' : σ} (h : exec x s = (.ok a, s')) (f : α → Effect σ ε β) :
    exec (x >>= f) s = exec (f a) s' := by rw [exec_bind, h]

variable {e : ε}

theorem exec_bind_of_error {s' : σ} (h : exec x s = (.error e, s')) (f : α → Effect σ ε β) :
    exec (x >>= f) s = (.error e, s') := by rw [exec_bind, h]

@[simp] theorem exec_get_bind (f : σ → Effect σ ε β) (s : σ) : exec (get >>= f) s = exec (f s) s :=
  exec_bind_of_ok (exec_get s) f

@[simp] theorem exec_modify_bind (g : σ → σ) (f : Unit → Effect σ ε β) (s : σ) :
    exec (modify g >>= f) s = exec (f ()) (g s) := exec_bind_of_ok (exec_modify g s) f

theorem exec_lift_bind (x : Except ε α) (f : α → Effect σ ε β) (s : σ) : exec (liftM x >>= f) s =
      match x with
      | .ok a => exec (f a) s
      | .error e => (.error e, s) := by
  cases x with
  | ok a => exact exec_bind_of_ok (exec_lift _ s) f
  | error e => exact exec_bind_of_error (exec_lift _ s) f

theorem exec_lift_bind_of_ok {x : Except ε α} (h : x = .ok a) (f : α → Effect σ ε β) (s : σ) :
    exec (liftM x >>= f) s = exec (f a) s := by rw [exec_lift_bind, h]

theorem exec_lift_bind_of_error {x : Except ε α} (h : x = .error e) (f : α → Effect σ ε β) (s : σ) :
    exec (liftM x >>= f) s = (.error e, s) := by rw [exec_lift_bind, h]

variable {f : α → Effect σ ε β} {b : β}

/-- **A chain succeeds exactly when both its links do.** -/
theorem exec_bind_eq_ok : exec (x >>= f) s = (.ok b, t) ↔
      ∃ a s', exec x s = (.ok a, s') ∧ exec (f a) s' = (.ok b, t) := by
  rw [exec_bind]
  rcases exec x s with ⟨r, s'⟩
  cases r <;> simp

theorem exec_lift_bind_eq_ok {x : Except ε α} :
    exec (liftM x >>= f) s = (.ok b, t) ↔ ∃ a, x = .ok a ∧ exec (f a) s = (.ok b, t) := by
  rw [exec_lift_bind]
  cases x <;> simp

theorem exec_ite_throw_eq_ok {c : Prop} [Decidable c] : exec (if c then throw e else x) s = (.ok a, t) ↔
    ¬ c ∧ exec x s = (.ok a, t) := by
  split_ifs with h <;> simp [h]

/-- **A chain fails in its first link, or in its second from the state the first left.** -/
theorem exec_bind_eq_error : exec (x >>= f) s = (.error e, t) ↔
      exec x s = (.error e, t) ∨ ∃ a s', exec x s = (.ok a, s') ∧ exec (f a) s' = (.error e, t) := by
  rw [exec_bind]
  rcases exec x s with ⟨r, s'⟩
  cases r <;> simp

theorem exec_mapM_cons {l : List α} {s1 s2 : σ} {bs : List β} (ha : exec (f a) s = (.ok b, s1))
    (hl : exec (l.mapM f) s1 = (.ok bs, s2)) : exec ((a :: l).mapM f) s = (.ok (b :: bs), s2) := by
  rw [List.mapM_cons, exec_bind_of_ok ha, exec_bind_of_ok hl]
  rfl

/-! ## What every run keeps -/

/-- Every run ends in a state related to the one it started from. -/
def Keeps (R : σ → σ → Prop) (x : Effect σ ε α) : Prop := ∀ s, R s (exec x s).2

section Keeps

variable {R : σ → σ → Prop} [IsPreorder σ R]

theorem keeps_pure (a : α) : Keeps R (pure a : Effect σ ε α) := refl_of R

theorem keeps_throw (e : ε) : Keeps R (throw e : Effect σ ε α) := refl_of R

theorem keeps_get : Keeps R (get : Effect σ ε σ) := refl_of R

theorem keeps_bind {x : Effect σ ε α} {f : α → Effect σ ε β} (hx : Keeps R x)
    (hf : ∀ a, Keeps R (f a)) : Keeps R (x >>= f) := by
  intro s
  have hs := hx s
  rw [exec_bind]
  rcases hres : exec x s with ⟨r, s'⟩
  rw [hres] at hs
  cases r with
  | ok a => exact trans_of R hs (hf a s')
  | error e => exact hs

theorem keeps_firstSome {xs : List (Effect σ ε (Option α))} (h : ∀ x ∈ xs, Keeps R x) :
    Keeps R (firstSome xs) := by
  induction xs with
  | nil => exact keeps_pure none
  | cons x xs ih =>
    refine keeps_bind (h x (by simp)) fun r => ?_
    cases r with
    | some a => exact keeps_pure (some a)
    | none => exact ih fun y hy => h y (by simp [hy])

theorem keeps_foldlM {f : β → α → Effect σ ε β} {xs : List α} (h : ∀ b, ∀ x ∈ xs, Keeps R (f b x))
    (b : β) : Keeps R (xs.foldlM f b) := by
  induction xs generalizing b with
  | nil => exact keeps_pure b
  | cons x xs ih =>
    rw [List.foldlM_cons]
    exact keeps_bind (h b x (by simp)) fun b' => ih (fun b y hy => h b y (by simp [hy])) b'

end Keeps

/-! ## Runs side by side -/

/-- Runs from related states end alike, in related states. -/
def Parallel (R : σ → σ → Prop) (x : Effect σ ε α) : Prop := ∀ s t, R s t →
  (∃ a s' t', exec x s = (.ok a, s') ∧ exec x t = (.ok a, t') ∧ R s' t') ∨
    (∃ e s', exec x s = (.error e, s')) ∧ ∃ e t', exec x t = (.error e, t')

section Parallel

variable {R : σ → σ → Prop}

theorem parallel_pure (a : α) : Parallel R (pure a : Effect σ ε α) :=
  fun s t h => .inl ⟨a, s, t, rfl, rfl, h⟩

theorem parallel_bind {x : Effect σ ε α} {f : α → Effect σ ε β} (hx : Parallel R x)
    (hf : ∀ a, Parallel R (f a)) : Parallel R (x >>= f) := by
  intro s t h
  obtain ⟨a, s', t', hs, ht, h'⟩ | ⟨⟨e, s', hs⟩, e', t', ht⟩ := hx s t h
  · rw [exec_bind_of_ok hs, exec_bind_of_ok ht]
    exact hf a s' t' h'
  · exact .inr ⟨⟨e, s', exec_bind_of_error hs f⟩, e', t', exec_bind_of_error ht f⟩

theorem parallel_firstSome {xs : List (Effect σ ε (Option α))} (h : ∀ x ∈ xs, Parallel R x) :
    Parallel R (firstSome xs) := by
  induction xs with
  | nil => exact parallel_pure none
  | cons x xs ih =>
    refine parallel_bind (h x (by simp)) fun r => ?_
    cases r with
    | some a => exact parallel_pure (some a)
    | none => exact ih fun y hy => h y (by simp [hy])

theorem parallel_foldlM {f : β → α → Effect σ ε β} {xs : List α}
    (h : ∀ b, ∀ x ∈ xs, Parallel R (f b x)) (b : β) : Parallel R (xs.foldlM f b) := by
  induction xs generalizing b with
  | nil => exact parallel_pure b
  | cons x xs ih =>
    rw [List.foldlM_cons]
    exact parallel_bind (h b x (by simp)) fun b' => ih (fun b y hy => h b y (by simp [hy])) b'

end Parallel

/-! ## Effects that move upwards -/

section Settles

variable [Preorder σ]

/-- The effect moves upwards, and succeeds exactly if `P` holds, with a result that satisfies `Q`. -/
def Settles (x : Effect σ ε α) (P : Prop) (Q : σ → α → Prop) (s : σ) : Prop :=
  ∃ s', s ≤ s' ∧
    ((P ∧ ∃ a, exec x s = (.ok a, s') ∧ Q s' a) ∨ ¬ P ∧ ∃ e, exec x s = (.error e, s'))

variable {P R : Prop} {Q : σ → α → Prop} {s : σ}

theorem settles_pure {a : α} (h : Q s a) : Settles (pure a : Effect σ ε α) True Q s :=
  ⟨s, le_rfl, .inl ⟨trivial, a, rfl, h⟩⟩

theorem Settles.imp {x : Effect σ ε α} {Q' : σ → α → Prop} (h : Settles x P Q s) (hP : P ↔ R)
    (hQ : ∀ s' a, s ≤ s' → Q s' a → Q' s' a) : Settles x R Q' s := by
  obtain ⟨s', hle, ⟨hp, a, ha, hq⟩ | ⟨hp, e, he⟩⟩ := h
  · exact ⟨s', hle, .inl ⟨hP.mp hp, a, ha, hQ s' a hle hq⟩⟩
  · exact ⟨s', hle, .inr ⟨fun h => hp (hP.mpr h), e, he⟩⟩

/-- **A chain succeeds exactly if the conditions of both links hold.** -/
theorem Settles.bind {x : Effect σ ε α} {f : α → Effect σ ε β} {Q' : σ → β → Prop}
    (hx : Settles x P Q s) (hf : ∀ a s', s ≤ s' → Q s' a → Settles (f a) R Q' s') :
    Settles (x >>= f) (P ∧ R) Q' s := by
  obtain ⟨s1, hle, ⟨hp, a, ha, hq⟩ | ⟨hp, e, he⟩⟩ := hx
  · obtain ⟨s2, hle', ⟨hp', b, hb, hq'⟩ | ⟨hp', e, he⟩⟩ := hf a s1 hle hq
    · exact ⟨s2, hle.trans hle', .inl ⟨⟨hp, hp'⟩, b, by rw [exec_bind_of_ok ha, hb], hq'⟩⟩
    · exact ⟨s2, hle.trans hle', .inr ⟨fun h => hp' h.2, e, by rw [exec_bind_of_ok ha, he]⟩⟩
  · exact ⟨s1, hle, .inr ⟨fun h => hp h.1, e, exec_bind_of_error he f⟩⟩

/-- **A list of effects succeeds exactly if the conditions of all of them hold.** -/
theorem settles_mapM {f : α → Effect σ ε β} {P : α → Prop} {Q : α → σ → β → Prop}
    (hQ : ∀ a b s t, s ≤ t → Q a s b → Q a t b) (xs : List α)
    (hf : ∀ x ∈ xs, ∀ s', Settles (f x) (P x) (Q x) s') (s : σ) :
    Settles (xs.mapM f) (∀ x ∈ xs, P x) (fun s' bs => List.Forall₂ (fun x b => Q x s' b) xs bs) s := by
  induction xs generalizing s with
  | nil => exact (settles_pure (Q := fun _ bs => List.Forall₂ _ [] bs) .nil).imp (by simp) fun _ _ _ => id
  | cons x xs ih =>
    rw [List.mapM_cons]
    refine ((hf x (by simp) s).bind (R := ∀ y ∈ xs, P y) fun b s1 _ hb => ?_).imp (by simp)
      fun _ _ _ => id
    refine ((ih (fun y hy => hf y (by simp [hy])) s1).bind (R := True) fun bs s2 hle hbs => ?_).imp
      (and_iff_left trivial) fun _ _ _ => id
    exact settles_pure (List.Forall₂.cons (hQ x b s1 s2 hle hb) hbs)

end Settles

/-! ## Values, errors and states -/

/-- From `s` the effect succeeds with `P`, or fails with `E`. -/
def Ends (P : α → σ → Prop) (E : ε → σ → Prop) (x : Effect σ ε α) (s : σ) : Prop :=
  match exec x s with
  | (.ok a, s') => P a s'
  | (.error e, s') => E e s'

section Ends

variable {P : α → σ → Prop} {Q : β → σ → Prop} {E : ε → σ → Prop} {x : Effect σ ε α} {s : σ}

theorem Ends.bind {f : α → Effect σ ε β} (hx : Ends P E x s)
    (hf : ∀ a s', P a s' → Ends Q E (f a) s') : Ends Q E (x >>= f) s := by
  unfold Ends at hx ⊢
  rw [exec_bind]
  rcases h : exec x s with ⟨_ | a, s'⟩
  · rw [h] at hx
    exact hx
  · rw [h] at hx
    exact hf a s' hx

theorem Ends.imp {P' : α → σ → Prop} {E' : ε → σ → Prop} (hx : Ends P E x s)
    (h : ∀ a s', P a s' → P' a s') (hE : ∀ e s', E e s' → E' e s') : Ends P' E' x s := by
  unfold Ends at hx ⊢
  rcases he : exec x s with ⟨e | a, s'⟩
  · rw [he] at hx
    exact hE e s' hx
  · rw [he] at hx
    exact h a s' hx

theorem Ends.of_ok {a : α} {s' : σ} (hx : Ends P E x s) (h : exec x s = (.ok a, s')) : P a s' := by
  rw [Ends, h] at hx
  exact hx

theorem Ends.of_error {e : ε} {s' : σ} (hx : Ends P E x s) (h : exec x s = (.error e, s')) :
    E e s' := by
  rw [Ends, h] at hx
  exact hx

theorem ends_lift {y : Except ε α} {p : α → Prop} {q : ε → Prop} (hy : Fallible.Ends p q y) :
    Ends (fun a s' => p a ∧ s' = s) (fun e s' => q e ∧ s' = s) (liftM y : Effect σ ε α) s := by
  cases y with
  | ok a => exact ⟨hy, rfl⟩
  | error e => exact ⟨hy, rfl⟩

end Ends

section Keeps

variable {R : σ → σ → Prop} [IsPreorder σ R] {f : α → Effect σ ε β}

/-- A first link from a given state, and any second link. -/
theorem keeps_bind_of {x : Effect σ ε α} {s : σ} (hx : R s (exec x s).2)
    (hf : ∀ a, Keeps R (f a)) : R s (exec (x >>= f) s).2 := by
  rw [exec_bind]
  rcases hres : exec x s with ⟨r, s'⟩
  rw [hres] at hx
  cases r with
  | ok a => exact trans_of R hx (hf a s')
  | error e => exact hx

/-- A check in a given state. -/
theorem keeps_check_of {x : Except ε α} {s : σ}
    (hf : ∀ a, x = .ok a → R s (exec (f a) s).2) : R s (exec (liftM x >>= f) s).2 := by
  rw [exec_lift_bind]
  cases x with
  | ok a => exact hf a rfl
  | error e => exact refl_of R s

theorem keeps_check {x : Except ε α} (hf : ∀ a, x = .ok a → Keeps R (f a)) :
    Keeps R (liftM x >>= f) := fun s => keeps_check_of fun a h => hf a h s

omit [IsPreorder σ R] in
/-- What follows may depend on the state it starts from. -/
theorem keeps_get_bind {f : σ → Effect σ ε β} (hf : ∀ s, R s (exec (f s) s).2) :
    Keeps R (get >>= f) := by
  intro s
  rw [exec_get_bind]
  exact hf s

omit [IsPreorder σ R] in
theorem keeps_ite {c : Prop} [Decidable c] {x y : Effect σ ε α} (hx : Keeps R x) (hy : Keeps R y) :
    Keeps R (if c then x else y) := by
  split_ifs
  · exact hx
  · exact hy

theorem keeps_forM {f : α → Effect σ ε PUnit} {xs : List α} (hf : ∀ x ∈ xs, Keeps R (f x)) :
    Keeps R (xs.forM f) := by
  induction xs with
  | nil => exact keeps_pure _
  | cons x xs ih =>
    change Keeps R (f x >>= fun _ => xs.forM f)
    exact keeps_bind (hf x (by simp)) fun _ => ih fun y hy => hf y (by simp [hy])

end Keeps

/-- **What every step preserves, a chain of steps does.** -/
theorem preserved_of_steps {R : σ → σ → Prop} {P : σ → Prop} (hR : ∀ s t, R s t → P s → P t) {s t : σ}
    (h : Relation.ReflTransGen R s t) (hs : P s) : P t := by
  induction h with
  | refl => exact hs
  | tail _ hstep ih => exact hR _ _ hstep ih

/-! ## Steps that are taken or refused -/

/-- Steps that are taken if they are allowed, and refused without a change if they are not. -/
structure Guarded (allowed : α → Prop) (g : σ → α → σ) (I : σ → Prop)
    (f : α → Effect σ ε PUnit) (xs : List α) : Prop where
  taken : ∀ {a s}, a ∈ xs → I s → allowed a → exec (f a) s = (.ok ⟨⟩, g s a) ∧ I (g s a)
  refused : ∀ {a s}, a ∈ xs → I s → ¬ allowed a → ∃ e, exec (f a) s = (.error e, s)

theorem Guarded.tail {allowed : α → Prop} {g : σ → α → σ} {I : σ → Prop}
    {f : α → Effect σ ε PUnit} {x : α} {xs : List α} (hf : Guarded allowed g I f (x :: xs)) :
    Guarded allowed g I f xs :=
  ⟨fun ha => hf.taken (List.mem_cons_of_mem x ha), fun ha => hf.refused (List.mem_cons_of_mem x ha)⟩

/-- **A list of steps** is taken up to the first one that is refused. -/
theorem Guarded.forM {allowed : α → Prop} {g : σ → α → σ} {I : σ → Prop}
    {f : α → Effect σ ε PUnit} {xs : List α} (hf : Guarded allowed g I f xs) {s : σ} (hI : I s) :
    ((∀ a ∈ xs, allowed a) ∧ exec (xs.forM f) s = (.ok ⟨⟩, xs.foldl g s)) ∨
      ∃ pre a post e, xs = pre ++ a :: post ∧ (∀ b ∈ pre, allowed b) ∧ ¬ allowed a ∧
        exec (xs.forM f) s = (.error e, pre.foldl g s) := by
  induction xs generalizing s with
  | nil => exact .inl ⟨by simp, rfl⟩
  | cons x xs ih =>
    change (_ ∧ exec (f x >>= fun _ => xs.forM f) s = _) ∨ ∃ pre a post e, _ ∧ _ ∧ _ ∧
      exec (f x >>= fun _ => xs.forM f) s = _
    by_cases hx : allowed x
    · obtain ⟨hex, hI'⟩ := hf.taken List.mem_cons_self hI hx
      rw [exec_bind_of_ok hex]
      rcases ih hf.tail hI' with ⟨hall, hrun⟩ | ⟨pre, a, post, e, rfl, hpre, ha, hrun⟩
      · exact .inl ⟨by simpa [hx] using hall, by rw [hrun, List.foldl_cons]⟩
      · refine .inr ⟨x :: pre, a, post, e, rfl, ?_, ha, by rw [hrun, List.foldl_cons]⟩
        simpa [hx] using hpre
    · obtain ⟨e, hex⟩ := hf.refused List.mem_cons_self hI hx
      exact .inr ⟨[], x, xs, e, rfl, by simp, hx, exec_bind_of_error hex _⟩

end Effect
