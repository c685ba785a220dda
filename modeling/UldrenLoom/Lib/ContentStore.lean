import UldrenLoom.Lib.SortedMap

/-!
# Content-addressed stores

A finite store that keeps every object at the object's digest.

* **`get_put_self`**: without collisions, what was put is found at its digest.
-/

/-- A store that keeps every object at its digest. -/
structure ContentStore {D α : Type} [LinearOrder D] (hash : α → D) where
  objects : SortedMap D α
  addressed : ∀ {d a}, objects.get d = some a → hash a = d

namespace ContentStore

variable {D α : Type} [LinearOrder D] {hash : α → D}

def empty : ContentStore hash :=
  ⟨SortedMap.empty, fun h => absurd h.symm (Option.some_ne_none _)⟩

instance : Inhabited (ContentStore hash) := ⟨empty⟩

variable (s : ContentStore hash)

def get (d : D) : Option α := s.objects.get d

def size : ℕ := s.objects.keys.length

def put (a : α) : ContentStore hash :=
  match h : s.objects.get (hash a) with
  | some _ => s
  | none =>
    { objects := s.objects.insert (hash a) a
      addressed := by
        intro d b hb
        rw [SortedMap.get_insert] at hb
        split_ifs at hb with hd
        · rw [← Option.some.inj hb, hd]
        · exact s.addressed hb }

theorem get_put (a : α) (d : D) :
    (s.put a).get d = if hash a = d then some ((s.get d).getD a) else s.get d := by
  unfold put
  split
  · next b h =>
    split_ifs with hd
    · subst hd
      rw [get, h]
      rfl
    · rfl
  · next h =>
    rw [get, SortedMap.get_insert]
    split_ifs with hd
    · subst hd
      rw [get, h]
      rfl
    · rfl

/-- One store holds all that another holds. -/
instance : Preorder (ContentStore hash) where
  le s t := ∀ d a, s.get d = some a → t.get d = some a
  le_refl _ _ _ h := h
  le_trans _ _ _ h h' d a hd := h' d a (h d a hd)

theorem le_put (a : α) : s ≤ s.put a := by
  intro d b h
  rw [get_put, h]
  split_ifs <;> rfl

theorem hash_of_get {s : ContentStore hash} {d : D} {a : α} (h : s.get d = some a) : hash a = d :=
  s.addressed h

/-- **What was put is found**, where no two objects share a digest. -/
theorem get_put_self (hinj : Function.Injective hash) (s : ContentStore hash) (a : α) :
    (s.put a).get (hash a) = some a := by
  rw [get_put, if_pos rfl]
  cases h : s.get (hash a) with
  | none => rfl
  | some b => rw [hinj (hash_of_get h)]; rfl

theorem mem_keys_of_get {s : ContentStore hash} {d : D} {a : α} (h : s.get d = some a) :
    d ∈ s.objects.keys := SortedMap.mem_keys_of_get h

end ContentStore
