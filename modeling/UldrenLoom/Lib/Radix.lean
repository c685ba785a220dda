import Mathlib

/-!
# Fractions in a positional system

* **`compare_frac`**: without zeros at the end, digits compare as the numbers they stand for.
* **`compare_mul_zpow`**: mantissas between one and the base compare after the exponents.
-/

namespace Radix

open List

variable {b : ℕ}

/-- The number that digits stand for, with the point after the first one. -/
def frac (b : ℕ) : List ℕ → ℚ
  | [] => 0
  | d :: ds => d + frac b ds / b

theorem frac_nonneg (ds : List ℕ) : 0 ≤ frac b ds := by
  induction ds with
  | nil => exact le_rfl
  | cons d ds ih =>
    rw [frac]
    positivity

theorem frac_lt (hb : 0 < b) {ds : List ℕ} (h : ∀ d ∈ ds, d < b) : frac b ds < b := by
  have hb' : (0 : ℚ) < b := by exact_mod_cast hb
  induction ds with
  | nil => exact hb'
  | cons d ds ih =>
    have hd : (d : ℚ) + 1 ≤ b := by exact_mod_cast h d mem_cons_self
    have htail : frac b ds / b < 1 :=
      (div_lt_one hb').mpr (ih fun d hd => h d (mem_cons_of_mem _ hd))
    rw [frac]
    linarith

theorem le_frac_cons (d : ℕ) (ds : List ℕ) : (d : ℚ) ≤ frac b (d :: ds) := by
  have := frac_nonneg (b := b) ds
  rw [frac]
  linarith [show 0 ≤ frac b ds / b by positivity]

theorem frac_pos (hb : 0 < b) {ds : List ℕ} (hne : ds ≠ []) (h : ds.getLast? ≠ some 0) :
    0 < frac b ds := by
  have hb' : (0 : ℚ) < b := by exact_mod_cast hb
  induction ds with
  | nil => exact absurd rfl hne
  | cons d ds ih =>
    cases ds with
    | nil =>
      have hd : 0 < d := Nat.pos_of_ne_zero fun hd => h (by simp [hd])
      exact lt_of_lt_of_le (by exact_mod_cast hd) (le_frac_cons d [])
    | cons d' ds =>
      have htail := ih (cons_ne_nil _ _) (by rwa [List.getLast?_cons_cons] at h)
      rw [frac]
      positivity

theorem frac_concat_zero (ds : List ℕ) : frac b (ds ++ [0]) = frac b ds := by
  induction ds with
  | nil => simp [frac]
  | cons d ds ih => rw [cons_append, frac, frac, ih]

theorem frac_rdropWhile {p : ℕ → Bool} {ds : List ℕ} (hp : ∀ d ∈ ds, p d → d = 0) :
    frac b (ds.rdropWhile p) = frac b ds := by
  induction ds using List.reverseRecOn with
  | nil => rfl
  | append_singleton ds d ih =>
    by_cases hd : p d
    · rw [rdropWhile_concat_pos _ _ _ hd, ih fun d hd => hp d (mem_append_left _ hd),
        hp d (by simp) hd, frac_concat_zero]
    · rw [rdropWhile_concat_neg _ _ _ hd]

theorem frac_mul_pow (hb : 0 < b) (ds : List ℕ) :
    frac b ds * (b : ℚ) ^ ds.length = b * Nat.ofDigits b ds.reverse := by
  have hb' : (b : ℚ) ≠ 0 := by exact_mod_cast hb.ne'
  induction ds with
  | nil => simp [frac]
  | cons d ds ih =>
    have hstep : frac b (d :: ds) * (b : ℚ) ^ (d :: ds).length =
        d * (b : ℚ) ^ (ds.length + 1) + frac b ds * (b : ℚ) ^ ds.length := by
      rw [frac, length_cons]
      field_simp
      ring
    rw [hstep, ih, reverse_cons, Nat.ofDigits_append, length_reverse, Nat.ofDigits_singleton]
    push_cast
    ring

/-- **Digits without zeros at the end compare as the numbers they stand for.** -/
theorem compare_frac (hb : 0 < b) {x y : List ℕ} (hx : ∀ d ∈ x, d < b) (hy : ∀ d ∈ y, d < b)
    (hx0 : x.getLast? ≠ some 0) (hy0 : y.getLast? ≠ some 0) :
    List.compareLex compare x y = compare (frac b x) (frac b y) := by
  have hb' : (0 : ℚ) < b := by exact_mod_cast hb
  have hlast : ∀ {d : ℕ} {ds : List ℕ}, (d :: ds).getLast? ≠ some 0 → ds.getLast? ≠ some 0 := by
    intro d ds h
    cases ds with
    | nil => simp
    | cons d' ds => rwa [List.getLast?_cons_cons] at h
  induction x generalizing y with
  | nil =>
    cases y with
    | nil => exact (compare_eq_iff_eq.mpr rfl).symm
    | cons e y => exact (compare_lt_iff_lt.mpr (frac_pos hb (List.cons_ne_nil _ _) hy0)).symm
  | cons d x ih =>
    cases y with
    | nil => exact (compare_gt_iff_gt.mpr (frac_pos hb (List.cons_ne_nil _ _) hx0)).symm
    | cons e y =>
      have hx' := fun c hc => hx c (List.mem_cons_of_mem d hc)
      have hy' := fun c hc => hy c (List.mem_cons_of_mem e hc)
      -- a smaller first digit decides: what follows it is less than one
      have hless : ∀ {d e : ℕ} {u v : List ℕ}, (∀ c ∈ u, c < b) → d < e →
          frac b (d :: u) < frac b (e :: v) := by
        intro d e u v hu hde
        have hde' : (d : ℚ) + 1 ≤ e := by exact_mod_cast hde
        have htail : frac b u / b < 1 := (div_lt_one hb').mpr (frac_lt hb hu)
        calc frac b (d :: u) < d + 1 := by rw [frac]; linarith
          _ ≤ e := hde'
          _ ≤ frac b (e :: v) := le_frac_cons e v
      rw [List.compareLex_cons_cons]
      rcases lt_trichotomy d e with hde | rfl | hde
      · rw [compare_lt_iff_lt.mpr hde, compare_lt_iff_lt.mpr (hless hx' hde)]
        rfl
      · rw [compare_eq_iff_eq.mpr rfl, Ordering.eq_then, ih hx' hy' (hlast hx0) (hlast hy0), frac,
          frac, ← cmp_eq_compare, ← cmp_eq_compare, cmp_add_left, div_eq_mul_inv, div_eq_mul_inv,
          cmp_mul_pos_right (inv_pos.mpr hb')]
      · rw [compare_gt_iff_gt.mpr hde, compare_gt_iff_gt.mpr (hless hy' hde)]
        rfl

/-- **Mantissas between one and the base compare after the exponents.** -/
theorem compare_mul_zpow (hb : 1 < b) {f g : ℚ} (hf : 1 ≤ f) (hf' : f < b) (hg : 1 ≤ g)
    (hg' : g < b) (i j : ℤ) :
    compare (f * (b : ℚ) ^ i) (g * (b : ℚ) ^ j) = (compare i j).then (compare f g) := by
  have hb' : (1 : ℚ) < b := by exact_mod_cast hb
  have hless : ∀ {f g : ℚ} {i j : ℤ}, f < b → 1 ≤ g → i < j → f * (b : ℚ) ^ i < g * (b : ℚ) ^ j := by
    intro f g i j hf hg hij
    calc f * (b : ℚ) ^ i < b * (b : ℚ) ^ i := by gcongr
      _ = (b : ℚ) ^ (i + 1) := by rw [zpow_add₀ (by positivity), zpow_one, mul_comm]
      _ ≤ (b : ℚ) ^ j := zpow_le_zpow_right₀ hb'.le hij
      _ ≤ g * (b : ℚ) ^ j := le_mul_of_one_le_left (by positivity) hg
  rcases lt_trichotomy i j with hij | rfl | hij
  · rw [compare_lt_iff_lt.mpr hij, compare_lt_iff_lt.mpr (hless hf' hg hij)]
    rfl
  · have hp : (0 : ℚ) < (b : ℚ) ^ i := by positivity
    rw [compare_eq_iff_eq.mpr (rfl : i = i), Ordering.eq_then, ← cmp_eq_compare, ← cmp_eq_compare,
      cmp_mul_pos_right hp]
  · rw [compare_gt_iff_gt.mpr hij, compare_gt_iff_gt.mpr (hless hg' hf hij)]
    rfl

end Radix
