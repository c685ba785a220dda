import Mathlib

/-!
# Trees of hashes over lists

A list of leaves is hashed into a root by splitting it at the largest power of two below its length.
The trees of a list and of a shorter one that starts it share all subtrees left of the shorter
one's end. From their last common subtree two roots are reached by hashing in the same siblings:
those on the left for both, those on the right for the longer one only.

* **`climb_siblings`**: the way up leads to both roots.
* **`climb_injective`**: with a hash without collisions the upper root determines the way.
* **`Free.ne_of_climb_shorter`**: with the hash that keeps what it hashes, no shorter part of the
  way leads to both roots.
-/

namespace Merkle

open List

/-! ## The split point -/

/-- The largest power of two below `n`, for `n` at least two. -/
def split (n : ℕ) : ℕ := 2 ^ Nat.log2 (n - 1)

section Split

variable {m n : ℕ}

theorem split_pos (n : ℕ) : 0 < split n := Nat.two_pow_pos _

theorem split_lt (hn : 2 ≤ n) : split n < n := by
  have h := Nat.log2_self_le (n := n - 1) (by omega)
  unfold split
  omega

theorem le_two_mul_split (n : ℕ) : n ≤ 2 * split n := by
  have h := Nat.lt_log2_self (n := n - 1)
  rw [pow_succ] at h
  unfold split
  omega

theorem split_eq {h : ℕ} (hlo : 2 ^ h < n) (hhi : n ≤ 2 * 2 ^ h) : split n = 2 ^ h := by
  have heq : (n - 1).log2 = h := by
    refine (Nat.log2_eq_iff (by omega)).mpr ⟨by omega, ?_⟩
    rw [pow_succ]
    omega
  rw [split, heq]

/-- Beyond the split point of a list, a shorter list splits there too. -/
theorem split_stable (hm : split n < m) (hmn : m ≤ n) : split m = split n :=
  split_eq hm (hmn.trans (le_two_mul_split n))

/-- The lengths of both parts. -/
theorem split_lengths {α : Type} (xs : List α) (h : 2 ≤ xs.length) :
    0 < split xs.length ∧ split xs.length < xs.length ∧
      (xs.take (split xs.length)).length = split xs.length ∧
      (xs.drop (split xs.length)).length = xs.length - split xs.length := by
  have hlt := split_lt h
  exact ⟨split_pos _, hlt, length_take_of_le hlt.le, length_drop⟩

end Split

/-! ## Roots -/

section Roots

variable {D : Type} [Inhabited D] (H : D → D → D)

def root (leaves : List D) : D :=
  if _h : leaves.length ≤ 1 then leaves.headI
  else H (root (leaves.take (split leaves.length))) (root (leaves.drop (split leaves.length)))
termination_by leaves.length
decreasing_by
  all_goals
    have := split_lengths leaves (by omega)
    omega

theorem root_singleton (a : D) : root H [a] = a := by
  rw [root, dif_pos (by simp)]
  rfl

theorem root_split {leaves : List D} (h : 2 ≤ leaves.length) :
    root H leaves = H (root H (leaves.take (split leaves.length)))
      (root H (leaves.drop (split leaves.length))) := by
  rw [root, dif_neg (by omega)]

theorem root_take_split {leaves : List D} {m : ℕ} (hm : split leaves.length < m)
    (hmn : m ≤ leaves.length) :
    root H (leaves.take m) = H (root H (leaves.take (split leaves.length)))
      (root H ((leaves.drop (split leaves.length)).take (m - split leaves.length))) := by
  have hlen : (leaves.take m).length = m := length_take_of_le hmn
  have hpos := split_pos leaves.length
  rw [root_split H (by omega), hlen, split_stable hm hmn, take_take, drop_take, min_eq_left hm.le]

end Roots

/-! ## Climbing -/

/-- The side a sibling is on. -/
inductive Side where
  | left
  | right
deriving Repr, DecidableEq

section Climb

variable {D : Type} (H : D → D → D)

/-- Hash a sibling into the two hashes it is a sibling of. -/
def Side.hash (node : D) (p : D × D) : Side → D × D
  | .left => (H node p.1, H node p.2)
  | .right => (p.1, H p.2 node)

def climb : List Side → List D → D × D → D × D
  | side :: sides, node :: nodes, p => climb sides nodes (side.hash H node p)
  | _, _, p => p

theorem climb_nil (nodes : List D) (p : D × D) : climb H [] nodes p = p := by
  cases nodes <;> rfl

theorem climb_nil_nodes (sides : List Side) (p : D × D) : climb H sides [] p = p := by
  cases sides <;> rfl

variable {sides : List Side}

theorem climb_append {sides' : List Side} {nodes nodes' : List D}
    (h : sides.length = nodes.length) (p : D × D) :
    climb H (sides ++ sides') (nodes ++ nodes') p =
      climb H sides' nodes' (climb H sides nodes p) := by
  induction sides generalizing nodes p with
  | nil =>
    obtain rfl := length_eq_zero_iff.mp h.symm
    rfl
  | cons side sides ih =>
    cases nodes with
    | nil => cases h
    | cons node nodes => exact ih (Nat.succ.inj h) _

theorem climb_take (sides : List Side) (nodes : List D) (p : D × D) :
    climb H (sides.take nodes.length) nodes p = climb H sides nodes p := by
  induction nodes generalizing sides p with
  | nil => rw [climb_nil_nodes, climb_nil_nodes]
  | cons node nodes ih =>
    cases sides with
    | nil => rfl
    | cons side sides => exact ih sides _

theorem climb_fst_of_right (h : ∀ side ∈ sides, side = .right) (nodes : List D) (p : D × D) :
    (climb H sides nodes p).1 = p.1 := by
  induction sides generalizing nodes p with
  | nil => rw [climb_nil]
  | cons side sides ih =>
    obtain ⟨rfl, hrest⟩ := forall_mem_cons.mp h
    cases nodes with
    | nil => rfl
    | cons node nodes => exact ih hrest nodes _

/-- **Without collisions the hash at the top determines the way up.** -/
theorem climb_injective (hH : Function.Injective2 H) {nodes nodes' : List D}
    (h : nodes.length = sides.length) (h' : nodes'.length = sides.length) {p p' : D × D}
    (heq : (climb H sides nodes p).2 = (climb H sides nodes' p').2) :
    nodes = nodes' ∧ p.2 = p'.2 := by
  induction sides generalizing nodes nodes' p p' with
  | nil =>
    obtain rfl := length_eq_zero_iff.mp h
    obtain rfl := length_eq_zero_iff.mp h'
    exact ⟨rfl, heq⟩
  | cons side sides ih =>
    cases nodes with
    | nil => cases h
    | cons node nodes =>
      cases nodes' with
      | nil => cases h'
      | cons node' nodes' =>
        obtain ⟨rfl, hp⟩ := ih (Nat.succ.inj h) (Nat.succ.inj h') heq
        cases side with
        | left =>
          obtain ⟨hnode, htop⟩ := hH hp
          exact ⟨by rw [hnode], htop⟩
        | right =>
          obtain ⟨htop, hnode⟩ := hH hp
          exact ⟨by rw [hnode], htop⟩

end Climb

/-- The sides of the siblings from the last common subtree up, lowest first. -/
def sides (m n : ℕ) : List Side :=
  if _h : n ≤ m ∨ n ≤ 1 then []
  else if m ≤ split n then sides m (split n) ++ [.right]
  else sides (m - split n) (n - split n) ++ [.left]
termination_by n
decreasing_by
  · exact split_lt (by omega)
  · have := split_pos n
    omega

section Siblings

variable {D : Type} [Inhabited D] (H : D → D → D)

/-- The root of the last common subtree of a list and its first `m` leaves. -/
def base (m : ℕ) (leaves : List D) : D :=
  if _h : leaves.length ≤ m ∨ leaves.length ≤ 1 then root H leaves
  else if m ≤ split leaves.length then base m (leaves.take (split leaves.length))
  else base (m - split leaves.length) (leaves.drop (split leaves.length))
termination_by leaves.length
decreasing_by
  all_goals
    have := split_lengths leaves (by omega)
    omega

def siblings (m : ℕ) (leaves : List D) : List D :=
  if _h : leaves.length ≤ m ∨ leaves.length ≤ 1 then []
  else if m ≤ split leaves.length then
    siblings m (leaves.take (split leaves.length)) ++ [root H (leaves.drop (split leaves.length))]
  else
    siblings (m - split leaves.length) (leaves.drop (split leaves.length)) ++
      [root H (leaves.take (split leaves.length))]
termination_by leaves.length
decreasing_by
  all_goals
    have := split_lengths leaves (by omega)
    omega

theorem length_siblings (m : ℕ) (leaves : List D) :
    (siblings H m leaves).length = (sides m leaves.length).length := by
  induction hn : leaves.length using Nat.strong_induction_on generalizing m leaves with
  | _ n ih =>
    subst hn
    rw [siblings, sides]
    split_ifs with hend hm
    · rfl
    · obtain ⟨-, hlt, hlen, -⟩ := split_lengths leaves (by omega)
      rw [length_append, length_append, ih _ hlt m _ hlen]
      rfl
    · obtain ⟨hpos, -, -, hlen⟩ := split_lengths leaves (by omega)
      rw [length_append, length_append, ih _ (by omega) _ _ hlen]
      rfl

/-- **The siblings lead from the last common subtree to both roots.** -/
theorem climb_siblings {m : ℕ} {leaves : List D} (hm : 1 ≤ m) (hmn : m ≤ leaves.length) :
    climb H (sides m leaves.length) (siblings H m leaves) (base H m leaves, base H m leaves) =
      (root H (leaves.take m), root H leaves) := by
  induction hn : leaves.length using Nat.strong_induction_on generalizing m leaves with
  | _ n ih =>
    subst hn
    have hlengths := (length_siblings H m leaves).symm
    rw [siblings, sides, base] at *
    by_cases hend : leaves.length ≤ m ∨ leaves.length ≤ 1
    · rw [dif_pos hend, dif_pos hend, dif_pos hend, climb_nil, take_of_length_le (by omega)]
    · obtain ⟨hpos, hlt, hlen, hdrop⟩ := split_lengths leaves (by omega)
      simp only [dif_neg hend] at hlengths ⊢
      by_cases hsplit : m ≤ split leaves.length
      · simp only [if_pos hsplit] at hlengths ⊢
        have hrec := ih _ hlt hm (by omega) hlen
        rw [climb_append H (by simpa using hlengths), hrec, take_take, min_eq_left hsplit,
          root_split H (by omega : 2 ≤ leaves.length)]
        rfl
      · simp only [if_neg hsplit] at hlengths ⊢
        have hrec := @ih _ (by omega) (m - split leaves.length) (leaves.drop (split leaves.length))
          (by omega) (by omega) hdrop
        rw [climb_append H (by simpa using hlengths), hrec, root_take_split H (by omega) hmn,
          root_split H (by omega : 2 ≤ leaves.length)]
        rfl

theorem base_of_pow {h : ℕ} {leaves : List D} (hle : 2 ^ h ≤ leaves.length) :
    base H (2 ^ h) leaves = root H (leaves.take (2 ^ h)) := by
  induction hn : leaves.length using Nat.strong_induction_on generalizing leaves with
  | _ n ih =>
    subst hn
    have hpow := Nat.two_pow_pos h
    rw [base]
    by_cases hend : leaves.length ≤ 2 ^ h ∨ leaves.length ≤ 1
    · rw [dif_pos hend, take_of_length_le (by omega)]
    · obtain ⟨-, hlt, hlen, -⟩ := split_lengths leaves (by omega)
      have hsplit : 2 ^ h ≤ split leaves.length := by
        refine Nat.pow_le_pow_right two_pos ((Nat.le_log2 (by omega)).mpr ?_)
        omega
      rw [dif_neg hend, if_pos hsplit, ih _ hlt (by omega) hlen, take_take, min_eq_left hsplit]

end Siblings

/-! ## The sides in the bits of the lengths -/

/-- Read the sides off two node numbers, from the lowest bit up. -/
def bits (a b : ℕ) : List Side :=
  if _h : b = 0 then []
  else
    (if a % 2 = 1 then [.left] else if a = b then [] else [.right]) ++ bits (a / 2) (b / 2)
termination_by b
decreasing_by omega

def start (a b : ℕ) : ℕ × ℕ := if a % 2 = 1 then start (a / 2) (b / 2) else (a, b)
termination_by a
decreasing_by omega

/-- The same sides, read off the bits of the two lengths. -/
def walk (a b : ℕ) : List Side := bits (start a b).1 (start a b).2

theorem bits_zero (a : ℕ) : bits a 0 = [] := by
  rw [bits, dif_pos rfl]

variable {a : ℕ}

theorem bits_of_ne_zero {b : ℕ} (hb : b ≠ 0) : bits a b =
      (if a % 2 = 1 then [.left] else if a = b then [] else [.right]) ++ bits (a / 2) (b / 2) := by
  rw [bits, dif_neg hb]

theorem walk_of_odd (b : ℕ) (ha : a % 2 = 1) : walk a b = walk (a / 2) (b / 2) := by
  rw [walk, start, if_pos ha]
  rfl

theorem walk_of_even (b : ℕ) (ha : a % 2 ≠ 1) : walk a b = bits a b := by
  rw [walk, start, if_neg ha]

section Bits

variable {h a b : ℕ}

theorem bits_add_add (hab : a ≤ b) (hb : b < 2 ^ h) :
    bits (a + 2 ^ h) (b + 2 ^ h) = bits a b ++ [.left] := by
  induction h generalizing a b with
  | zero =>
    obtain rfl : b = 0 := by omega
    obtain rfl : a = 0 := by omega
    rw [bits_zero, bits_of_ne_zero (by simp)]
    simp [bits_zero]
  | succ h ih =>
    rw [pow_succ] at hb ⊢
    have hhalf : ∀ x, (x + 2 ^ h * 2) / 2 = x / 2 + 2 ^ h := fun x => by omega
    have hmod : (a + 2 ^ h * 2) % 2 = a % 2 := by omega
    rw [bits_of_ne_zero (by omega), hmod, hhalf, hhalf, ih (by omega) (by omega)]
    by_cases hzero : b = 0
    · subst hzero
      obtain rfl : a = 0 := by omega
      simp [bits_zero]
    · rw [bits_of_ne_zero hzero, append_assoc]
      simp only [Nat.add_right_cancel_iff]

theorem bits_add (ha : a < 2 ^ h) (hb : b < 2 ^ h) :
    bits a (b + 2 ^ h) = bits a (2 ^ h - 1) ++ [.right] := by
  induction h generalizing a b with
  | zero =>
    obtain rfl : b = 0 := by omega
    obtain rfl : a = 0 := by omega
    rw [bits_of_ne_zero (by simp)]
    simp [bits_zero]
  | succ h ih =>
    rw [pow_succ] at ha hb ⊢
    have hhalf : (b + 2 ^ h * 2) / 2 = b / 2 + 2 ^ h := by omega
    have hhalf' : (2 ^ h * 2 - 1) / 2 = 2 ^ h - 1 := by omega
    rw [bits_of_ne_zero (by omega), bits_of_ne_zero (b := 2 ^ h * 2 - 1) (by omega), hhalf, hhalf',
      ih (by omega) (by omega), append_assoc]
    split_ifs <;> first | rfl | omega

theorem walk_add_add (hab : a < b) (hb : b < 2 ^ h) :
    walk (a + 2 ^ h) (b + 2 ^ h) = walk a b ++ [.left] := by
  induction h generalizing a b with
  | zero => omega
  | succ h ih =>
    rw [pow_succ] at hb
    by_cases hodd : a % 2 = 1
    · rw [walk_of_odd b hodd, walk_of_odd _ (by rw [pow_succ]; omega), pow_succ]
      have hhalf : ∀ x, (x + 2 ^ h * 2) / 2 = x / 2 + 2 ^ h := fun x => by omega
      rw [hhalf, hhalf]
      exact ih (by omega) (by omega)
    · rw [walk_of_even b hodd, walk_of_even _ (by rw [pow_succ]; omega)]
      exact bits_add_add hab.le (by rw [pow_succ]; omega)

theorem walk_add (ha : a < 2 ^ h) (hb : b < 2 ^ h) :
    walk a (b + 2 ^ h) = walk a (2 ^ h - 1) ++ [.right] := by
  induction h generalizing a b with
  | zero =>
    have heven : a % 2 ≠ 1 := by omega
    rw [walk_of_even _ heven, walk_of_even _ heven]
    exact bits_add ha hb
  | succ h ih =>
    by_cases hodd : a % 2 = 1
    · rw [pow_succ] at ha hb
      have hhalf : (b + 2 ^ (h + 1)) / 2 = b / 2 + 2 ^ h := by rw [pow_succ]; omega
      have hhalf' : (2 ^ (h + 1) - 1) / 2 = 2 ^ h - 1 := by rw [pow_succ]; omega
      rw [walk_of_odd _ hodd, walk_of_odd _ hodd, hhalf, hhalf']
      exact ih (by omega) (by omega)
    · rw [walk_of_even _ hodd, walk_of_even _ hodd]
      exact bits_add ha hb

theorem walk_self (h : ℕ) : walk (2 ^ h - 1) (2 ^ h - 1) = [] := by
  induction h with
  | zero =>
    rw [walk_of_even _ (by simp)]
    exact bits_zero _
  | succ h ih =>
    have hpos := Nat.two_pow_pos h
    have hhalf : (2 ^ (h + 1) - 1) / 2 = 2 ^ h - 1 := by rw [pow_succ]; omega
    rw [walk_of_odd _ (by rw [pow_succ]; omega), hhalf, ih]

end Bits

/-- **The sides stand in the bits of the last node numbers.** -/
theorem walk_eq_sides {m n : ℕ} (hm : 1 ≤ m) (hmn : m < n) : walk (m - 1) (n - 1) = sides m n := by
  induction n using Nat.strong_induction_on generalizing m with
  | _ n ih =>
    have hlt := split_lt (n := n) (by omega)
    have hle := le_two_mul_split n
    have hpos := split_pos n
    obtain ⟨h, hh⟩ : ∃ h, split n = 2 ^ h := ⟨_, rfl⟩
    rw [sides, dif_neg (by omega)]
    rw [hh] at hlt hle hpos ⊢
    have hn : n - 1 = (n - 1 - 2 ^ h) + 2 ^ h := by omega
    by_cases hsplit : m ≤ 2 ^ h
    · rw [if_pos hsplit, hn, walk_add (by omega) (by omega)]
      rcases hsplit.lt_or_eq with hlt' | rfl
      · rw [ih _ hlt hm hlt']
      · rw [walk_self, sides, dif_pos (.inl le_rfl)]
    · rw [if_neg hsplit, hn, show m - 1 = (m - 2 ^ h - 1) + 2 ^ h by omega,
        walk_add_add (by omega) (by omega), show n - 1 - 2 ^ h = n - 2 ^ h - 1 by omega,
        ih (n - 2 ^ h) (by omega) (by omega) (by omega)]

theorem start_lt {b : ℕ} (hab : a < b) : (start a b).1 < (start a b).2 ∧ (start a b).1 % 2 ≠ 1 := by
  induction a using Nat.strong_induction_on generalizing b with
  | _ a ih =>
    rw [start]
    split_ifs with hodd
    · exact ih (a / 2) (by omega) (by omega)
    · exact ⟨hab, hodd⟩

theorem start_eq_zero_iff (a b : ℕ) : (start a b).1 = 0 ↔ ∃ h, a + 1 = 2 ^ h := by
  induction a using Nat.strong_induction_on generalizing b with
  | _ a ih =>
    rw [start]
    split_ifs with hodd
    · rw [ih (a / 2) (by omega)]
      constructor
      · rintro ⟨h, hh⟩
        exact ⟨h + 1, by rw [pow_succ]; omega⟩
      · rintro ⟨h, hh⟩
        cases h with
        | zero => omega
        | succ h => exact ⟨h, by rw [pow_succ] at hh; omega⟩
    · constructor
      · intro ha
        exact ⟨0, by rw [pow_zero]; omega⟩
      · rintro ⟨h, hh⟩
        cases h with
        | zero => exact Nat.succ.inj hh
        | succ h => rw [pow_succ] at hh; omega

theorem bits_zero_left (b : ℕ) : ∀ side ∈ bits 0 b, side = .right := by
  induction b using Nat.strong_induction_on with
  | _ b ih =>
    by_cases hb : b = 0
    · rw [hb, bits_zero]
      simp
    · rw [bits_of_ne_zero hb, if_neg (by simp), if_neg (Ne.symm hb)]
      simpa using ih (b / 2) (by omega)

theorem sides_eq_cons {m n : ℕ} (hm : 1 ≤ m) (hmn : m < n) :
    ∃ rest, sides m n = .right :: rest := by
  obtain ⟨hlt, heven⟩ := start_lt (a := m - 1) (b := n - 1) (by omega)
  rw [← walk_eq_sides hm hmn, walk, bits_of_ne_zero (by omega), if_neg heven, if_neg hlt.ne]
  exact ⟨_, rfl⟩

/-! ## The free hash -/

/-- A hash that keeps what it hashes. -/
inductive Free where
  | atom
  | node (left right : Free)
deriving Repr, DecidableEq, Inhabited

namespace Free

def size : Free → ℕ
  | atom => 1
  | node left right => left.size + right.size

theorem node_injective : Function.Injective2 node := by
  intro a a' b b' h
  injection h with ha hb
  exact ⟨ha, hb⟩

theorem size_pos (x : Free) : 0 < x.size := by
  induction x with
  | atom => exact Nat.one_pos
  | node _ _ ih _ => exact Nat.add_pos_left ih _

theorem size_lt_node (a x : Free) : a.size < (node a x).size := Nat.lt_add_of_pos_right x.size_pos

/-- Hashing siblings in, highest first, leads from a common hash to two. -/
inductive Reaches : List Side → Free → Free → Prop where
  | refl (x : Free) : Reaches [] x x
  | left {sides : List Side} {x y : Free} (a : Free) (h : Reaches sides x y) :
      Reaches (.left :: sides) (node a x) (node a y)
  | right {sides : List Side} {x y : Free} (a : Free) (h : Reaches sides x y) :
      Reaches (.right :: sides) x (node y a)

theorem reaches_climb {sides : List Side} {nodes : List Free} (h : sides.length = nodes.length)
    {top : List Side} {p : Free × Free} (hp : Reaches top p.1 p.2) :
    Reaches (sides.reverse ++ top) (climb node sides nodes p).1 (climb node sides nodes p).2 := by
  induction sides generalizing nodes top p with
  | nil =>
    rw [climb_nil]
    exact hp
  | cons side sides ih =>
    cases nodes with
    | nil => cases h
    | cons a nodes =>
      rw [reverse_cons, append_assoc]
      have hup : Reaches (side :: top) (side.hash node a p).1 (side.hash node a p).2 := by
        cases side with
        | left => exact .left a hp
        | right => exact .right a hp
      exact ih (Nat.succ.inj h) hup

namespace Reaches

variable {sides sides' : List Side} {x y : Free}

theorem size_le (h : Reaches sides x y) : x.size ≤ y.size := by
  induction h with
  | refl => exact le_rfl
  | left a _ ih => exact Nat.add_le_add_left ih _
  | right a _ ih => exact ih.trans (Nat.le_add_right _ _)

theorem eq_left_of_eq (h : Reaches sides x y) (hxy : x = y) : ∀ side ∈ sides, side = .left := by
  induction h with
  | refl => simp
  | left a _ ih =>
    injection hxy with _ hxy
    simpa using ih hxy
  | @right _ x y a h _ =>
    have hle := h.size_le
    rw [hxy] at hle
    exact absurd hle (not_le.mpr (size_lt_node y a))

theorem unique (h : Reaches sides x y) (h' : Reaches sides' x y)
    (hlen : sides.length ≤ sides'.length) :
    ∃ rest, sides' = sides ++ rest ∧ ∀ side ∈ rest, side = .left := by
  induction h generalizing sides' with
  | refl => exact ⟨sides', rfl, h'.eq_left_of_eq rfl⟩
  | @left sides x y a h ih =>
    cases h' with
    | refl => simp at hlen
    | left _ h' =>
      obtain ⟨rest, rfl, hrest⟩ := ih h' (Nat.succ_le_succ_iff.mp hlen)
      exact ⟨rest, rfl, hrest⟩
    | right _ h' => exact absurd h'.size_le (not_le.mpr (size_lt_node a x))
  | @right sides x y a h ih =>
    cases h' with
    | refl => simp at hlen
    | @left _ x' _ _ h' => exact absurd h.size_le (not_le.mpr (size_lt_node y x'))
    | right _ h' =>
      obtain ⟨rest, rfl, hrest⟩ := ih h' (Nat.succ_le_succ_iff.mp hlen)
      exact ⟨rest, rfl, hrest⟩

end Reaches

/-- **In the free hash no shorter part of the way leads to both roots.** -/
theorem ne_of_climb_shorter {m : ℕ} {leaves nodes : List Free} (hm : 1 ≤ m)
    (hmn : m < leaves.length) (hshort : nodes.length < (sides m leaves.length).length) {s : Free}
    (htop : (climb node (sides m leaves.length) nodes (s, s)).2 = root node leaves) :
    (climb node (sides m leaves.length) nodes (s, s)).1 ≠ root node (leaves.take m) := by
  intro hfirst
  have hlen : ((sides m leaves.length).take nodes.length).length = nodes.length :=
    length_take_of_le hshort.le
  have hshorter := reaches_climb hlen (p := (s, s)) (.refl s)
  rw [climb_take, hfirst, htop, append_nil] at hshorter
  have hwhole := reaches_climb (length_siblings node m leaves).symm
    (p := (base node m leaves, base node m leaves)) (.refl _)
  rw [climb_siblings _ hm hmn.le, append_nil] at hwhole
  obtain ⟨rest, hrest, hleft⟩ := hshorter.unique hwhole (by simp)
  -- The lowest sibling is on the right, and belongs to what is left over.
  obtain ⟨above, habove⟩ := sides_eq_cons hm hmn
  have hne : rest ≠ [] := by
    rintro rfl
    have hlength := congrArg List.length hrest
    rw [append_nil, length_reverse, length_reverse, hlen] at hlength
    omega
  have hlast := congrArg List.getLast? hrest
  rw [List.getLast?_append_of_ne_nil _ hne, List.getLast?_reverse, habove] at hlast
  cases hleft _ (mem_of_getLast? hlast.symm)

/-- The hash can be taken apart `k` times, whichever part is taken. -/
def Deep : ℕ → Free → Prop
  | 0, _ => True
  | _ + 1, atom => False
  | k + 1, node left right => Deep k left ∧ Deep k right

def full : ℕ → Free
  | 0 => atom
  | k + 1 => node (full k) (full k)

theorem deep_full (k : ℕ) : Deep k (full k) := by
  induction k with
  | zero => trivial
  | succ k ih => exact ⟨ih, ih⟩

variable {k : ℕ} {x : Free}

theorem Deep.of_succ (h : Deep (k + 1) x) : Deep k x := by
  induction k generalizing x with
  | zero => trivial
  | succ k ih =>
    cases x with
    | atom => cases h
    | node left right => exact ⟨ih h.1, ih h.2⟩

theorem deep_node {y : Free} (hx : Deep k x) (hy : Deep k y) : Deep k (node x y) := by
  cases k with
  | zero => trivial
  | succ k => exact ⟨hx.of_succ, hy.of_succ⟩

theorem deep_root {leaves : List Free} (hne : leaves ≠ []) (h : ∀ x ∈ leaves, Deep k x) :
    Deep k (root node leaves) := by
  induction hn : leaves.length using Nat.strong_induction_on generalizing leaves with
  | _ n ih =>
    subst hn
    have hlen := length_pos_of_ne_nil hne
    by_cases hone : leaves.length = 1
    · obtain ⟨a, rfl⟩ := length_eq_one_iff.mp hone
      rw [root_singleton]
      exact h a (mem_singleton.mpr rfl)
    · obtain ⟨hpos, hlt, htake, hdrop⟩ := split_lengths leaves (by omega)
      rw [root_split node (by omega)]
      refine deep_node (ih _ (by omega) ?_ (fun x hx => h x (mem_of_mem_take hx)) htake)
        (ih _ (by omega) ?_ (fun x hx => h x (mem_of_mem_drop hx)) hdrop)
      · exact ne_nil_of_length_pos (by omega)
      · exact ne_nil_of_length_pos (by omega)

/-- **A deep hash is reached by any way that is short enough.** -/
theorem exists_climb (sides : List Side) (h : Deep sides.length x) :
    ∃ s nodes, nodes.length = sides.length ∧ (climb node sides nodes (s, s)).2 = x := by
  induction sides using List.reverseRecOn generalizing x with
  | nil => exact ⟨x, [], rfl, rfl⟩
  | append_singleton sides side ih =>
    rw [length_append] at h
    cases x with
    | atom => cases h
    | node left right =>
      cases side with
      | left =>
        obtain ⟨s, nodes, hlen, htop⟩ := ih h.2
        refine ⟨s, nodes ++ [left], by simp [hlen], ?_⟩
        rw [climb_append node hlen.symm, ← htop]
        rfl
      | right =>
        obtain ⟨s, nodes, hlen, htop⟩ := ih h.1
        refine ⟨s, nodes ++ [right], by simp [hlen], ?_⟩
        rw [climb_append node hlen.symm, ← htop]
        rfl

end Free

end Merkle
