import UldrenLoom.Lib.Radix
import UldrenLoom.Tabular.KeyOrder

/-!
# Decimal keys sort as the decimals

* **`decimalKey_order`**: the bytes of two keys compare as the two rationals, and are equal exactly if
  the rationals are.
-/

namespace UldrenLoom.Tabular

open ByteString PrefixCode Radix List Nat

/-- The rational `mantissa * 10 ^ (-scale)`. -/
def decimalValue (mantissa : BitVec 128) (scale : BitVec 32) : ℚ :=
  mantissa.toInt / 10 ^ scale.toNat

/-! ## Digits -/

/-- The digits of a number without zeros at the end, most significant first. -/
def significant (n : ℕ) : List ℕ :=
  match (Nat.digits 10 n).reverse with
  | [] => []
  | d :: ds => d :: ds.rdropWhile fun d => UInt8.ofNat d + 48 == 48

theorem eq_zero_of_byte {d : ℕ} (hd : d < 10) (h : UInt8.ofNat d + 48 == 48) : d = 0 := by
  have := congrArg UInt8.toNat (beq_iff_eq.mp h)
  rw [UInt8.toNat_add, UInt8.toNat_ofNat', show (48 : UInt8).toNat = 48 from rfl] at this
  omega

theorem stripZeros_digitBytes (n : ℕ) :
    stripZeros (digitBytes n) = (significant n).map fun d => UInt8.ofNat d + 48 := by
  unfold digitBytes significant
  cases (Nat.digits 10 n).reverse with
  | nil => rfl
  | cons d ds =>
    rw [map_cons, stripZeros, map_cons, List.rdropWhile, List.rdropWhile, ← map_reverse,
      dropWhile_map, ← map_reverse]
    rfl

variable {n n' : ℕ}

/-- What is known of the significant digits of a positive number. -/
theorem significant_spec (hn : n ≠ 0) :
    (∀ d ∈ significant n, d < 10) ∧ (significant n).getLast? ≠ some 0 ∧
      1 ≤ frac 10 (significant n) ∧
      frac 10 (significant n) * 10 ^ (Nat.digits 10 n).length = 10 * n := by
  have hvalue := frac_mul_pow (b := 10) (by norm_num) (Nat.digits 10 n).reverse
  rw [reverse_reverse, ofDigits_digits, length_reverse] at hvalue
  have hlt : ∀ d ∈ (Nat.digits 10 n).reverse, d < 10 := fun d hd =>
    digits_lt_base (by norm_num) (mem_reverse.mp hd)
  have hhead : (Nat.digits 10 n).reverse.head? ≠ some 0 := by
    rw [List.head?_reverse, List.getLast?_eq_some_getLast (digits_ne_nil_iff_ne_zero.mpr hn)]
    exact fun h => getLast_digit_ne_zero 10 hn (Option.some.inj h)
  unfold significant
  generalize (Nat.digits 10 n).reverse = l at hvalue hlt hhead ⊢
  cases l with
  | nil => simp [frac] at hvalue; exact absurd hvalue hn
  | cons d ds =>
    have hd : d ≠ 0 := fun h => hhead (by rw [h]; rfl)
    have hsub : (ds.rdropWhile fun d => UInt8.ofNat d + 48 == 48) ⊆ ds :=
      ( rdropWhile_prefix _ _).subset
    have hfrac : frac 10 (d :: ds.rdropWhile fun d => UInt8.ofNat d + 48 == 48) = frac 10 (d :: ds) := by
      rw [frac, frac, frac_rdropWhile fun c hc => eq_zero_of_byte (hlt c (mem_cons_of_mem _ hc))]
    refine ⟨fun c hc => ?_, fun h => ?_, ?_, by rw [hfrac]; exact_mod_cast hvalue⟩
    · rcases mem_cons.mp hc with rfl | hc
      · exact hlt _ mem_cons_self
      · exact hlt c (mem_cons_of_mem _ (hsub hc))
    · rw [List.getLast?_cons] at h
      cases hl : (ds.rdropWhile fun d => UInt8.ofNat d + 48 == 48).getLast? with
      | none => simp [hl, hd] at h
      | some c =>
        have hne : (ds.rdropWhile fun d => UInt8.ofNat d + 48 == 48) ≠ [] := by
          intro hnil
          simp [hnil] at hl
        have hlast := rdropWhile_last_not _ _ hne
        rw [List.getLast?_eq_some_getLast hne] at hl
        rw [Option.some.inj hl] at hlast
        simp [List.getLast?_eq_some_getLast hne, Option.some.inj hl] at h
        simp [h] at hlast
    · exact le_trans (by exact_mod_cast one_le_iff_ne_zero.mpr hd) (le_frac_cons _ _)

/-! ## Magnitudes -/

def leadingExponent (n : ℕ) (scale : BitVec 32) : ℤ := (Nat.digits 10 n).length - scale.toNat - 1

def exponentKey (n : ℕ) (scale : BitVec 32) : Bytes :=
  toBeBytes 8 (signFlip (BitVec.ofInt 64 (leadingExponent n scale)))

/-- The bytes of the digits, each one higher, with a terminator. -/
def digitKey (n : ℕ) : Bytes := (significant n).map (fun d => UInt8.ofNat (d + 1)) ++ [0x00]

/-- Exponent, digits and terminator of a positive decimal. -/
def magnitudeKey (n : ℕ) (scale : BitVec 32) : Bytes := exponentKey n scale ++ digitKey n

/-- How a digit or terminator is turned around. -/
def flipDigit (b : UInt8) : UInt8 := if b = 0x00 then 0xff else 11 - b

theorem digit_codes : ∀ d < 10, UInt8.ofNat d + 48 - 48 + 1 = UInt8.ofNat (d + 1) ∧
    10 - (UInt8.ofNat d + 48 - 48) = flipDigit (UInt8.ofNat (d + 1)) := by decide +kernel

variable {m : BitVec 128}

theorem encodeDecimalKey_of_pos {s : BitVec 32} (h : 0 < m.toInt) :
    encodeDecimalKey m s = 0x81 :: magnitudeKey m.toInt.natAbs s := by
  have hdigits := (significant_spec (n := m.toInt.natAbs) (by omega)).1
  rw [encodeDecimalKey, if_neg h.ne', if_pos h, stripZeros_digitBytes, map_map]
  simp only [digitBytes, length_map, length_reverse, append_assoc]
  refine congrArg (fun l => 0x81 :: (exponentKey _ s ++ (l ++ [0x00]))) ?_
  exact map_congr_left fun d hd => (digit_codes d (hdigits d hd)).1

theorem encodeDecimalKey_of_neg {s : BitVec 32} (h : m.toInt < 0) :
    encodeDecimalKey m s = 0x7f :: ((exponentKey m.toInt.natAbs s).map (~~~ ·) ++
      (digitKey m.toInt.natAbs).map flipDigit) := by
  have hdigits := (significant_spec (n := m.toInt.natAbs) (by omega)).1
  rw [encodeDecimalKey, if_neg h.ne, if_neg h.not_gt, stripZeros_digitBytes, map_map, digitKey,
    map_append, map_map]
  simp only [digitBytes, length_map, length_reverse, append_assoc]
  refine congrArg (fun l => 0x7f :: ((exponentKey _ s).map (~~~ ·) ++ (l ++ [0xff]))) ?_
  exact map_congr_left fun d hd => (digit_codes d (hdigits d hd)).2

theorem separated_exponentKey (n n' : ℕ) (s s' : BitVec 32) :
    Separated (exponentKey n s) (exponentKey n' s') := separated_toBeBytes 8 _ _

theorem cmpBytes_exponentKey (hn : n < 10 ^ 39) (hn' : n' < 10 ^ 39) (s s' : BitVec 32) :
    cmpBytes (exponentKey n s) (exponentKey n' s') =
      compare (leadingExponent n s) (leadingExponent n' s') := by
  have hfits : ∀ (n : ℕ) (s : BitVec 32), n < 10 ^ 39 →
      (BitVec.ofInt 64 (leadingExponent n s)).toInt = leadingExponent n s := by
    intro n s hn
    have hlen := (digits_length_le_iff (by norm_num : 1 < 10) n).mpr hn
    have hs := s.isLt
    rw [BitVec.toInt_ofInt]
    unfold leadingExponent
    exact Int.bmod_eq_of_le (by omega) (by omega)
  rw [exponentKey, exponentKey, cmpBytes_toBeBytes (by norm_num), compare_signFlip, signedCmp,
    hfits n s hn, hfits n' s' hn']

theorem compare_byte : ∀ a < 10, ∀ b < 10,
    compare (UInt8.ofNat (a + 1)) (UInt8.ofNat (b + 1)) = compare a b ∧
      compare (UInt8.ofNat (a + 1)) 0x00 = .gt ∧ compare (0x00 : UInt8) (UInt8.ofNat (b + 1)) = .lt ∧
      UInt8.ofNat (a + 1) ≤ 10 := by
  decide +kernel

theorem cmpBytes_digitKey (hn : n ≠ 0) (hn' : n' ≠ 0) : cmpBytes (digitKey n) (digitKey n') =
      compare (frac 10 (significant n)) (frac 10 (significant n')) := by
  obtain ⟨hlt, hlast, -, -⟩ := significant_spec hn
  obtain ⟨hlt', hlast', -, -⟩ := significant_spec hn'
  rw [← compare_frac (by norm_num) hlt hlt' hlast hlast']
  exact compareLex_terminated (by decide) (fun a ha b hb => (compare_byte a (hlt a ha) b (hlt' b hb)).1)
    (fun a ha => (compare_byte a (hlt a ha) 0 (by norm_num)).2.1)
    (fun b hb => (compare_byte 0 (by norm_num) b (hlt' b hb)).2.2.1)

theorem magnitude_eq (hn : n ≠ 0) (s : BitVec 32) :
    (n : ℚ) / 10 ^ s.toNat = frac 10 (significant n) * (10 : ℚ) ^ leadingExponent n s := by
  obtain ⟨-, -, -, hvalue⟩ := significant_spec hn
  rw [leadingExponent, zpow_sub₀ (by norm_num), zpow_sub₀ (by norm_num), zpow_natCast, zpow_natCast,
    zpow_one, mul_div_assoc', mul_div_assoc', hvalue]
  field_simp

theorem cmpBytes_magnitudeKey (hn : n ≠ 0) (hn' : n' ≠ 0) (hlt : n < 10 ^ 39)
    (hlt' : n' < 10 ^ 39) (s s' : BitVec 32) :
    cmpBytes (magnitudeKey n s) (magnitudeKey n' s') =
      compare ((n : ℚ) / 10 ^ s.toNat) ((n' : ℚ) / 10 ^ s'.toNat) := by
  obtain ⟨hd, -, hone, -⟩ := significant_spec hn
  obtain ⟨hd', -, hone', -⟩ := significant_spec hn'
  have hz := compare_mul_zpow (b := 10) (by norm_num) hone (frac_lt (by norm_num) hd) hone'
    (frac_lt (by norm_num) hd') (leadingExponent n s) (leadingExponent n' s')
  rw [magnitude_eq hn, magnitude_eq hn']
  refine Eq.trans ?_ (by exact_mod_cast hz.symm)
  rw [← cmpBytes_exponentKey hlt hlt', ← cmpBytes_digitKey hn hn']
  exact compareLex_append_of_separated (separated_exponentKey _ _ _ _) _ _

theorem compare_flipDigit : ∀ a ≤ (10 : UInt8), ∀ b ≤ (10 : UInt8),
    compare (flipDigit a) (flipDigit b) = compare b a := by
  have h : ∀ a < 11, ∀ b < 11, compare (flipDigit (UInt8.ofNat a)) (flipDigit (UInt8.ofNat b)) =
      compare (UInt8.ofNat b) (UInt8.ofNat a) := by decide +kernel
  intro a ha b hb
  have := h a.toNat (by have := UInt8.le_iff_toNat_le.mp ha; exact lt_succ_of_le this) b.toNat
    (by have := UInt8.le_iff_toNat_le.mp hb; exact lt_succ_of_le this)
  rwa [UInt8.ofNat_toNat, UInt8.ofNat_toNat] at this

theorem digitKey_le (hn : n ≠ 0) {a : UInt8} (h : a ∈ digitKey n) : a ≤ 10 := by
  rcases mem_append.mp h with h | h
  · obtain ⟨d, hd, rfl⟩ := mem_map.mp h
    exact (compare_byte d ((significant_spec hn).1 d hd) 0 (by norm_num)).2.2.2
  · rw [mem_singleton.mp h]
    decide

theorem separated_digitKey (hn : n ≠ 0) (hn' : n' ≠ 0) : Separated (digitKey n) (digitKey n') := by
  have h : ∀ n ≠ 0, (0x00 : UInt8) ∉ (significant n).map fun d => UInt8.ofNat (d + 1) := by
    intro n hn hmem
    obtain ⟨d, hd, he⟩ := mem_map.mp hmem
    have hgt := (compare_byte d ((significant_spec hn).1 d hd) 0 (by norm_num)).2.1
    rw [he] at hgt
    cases hgt
  exact separated_terminated (h n hn) (h n' hn')

/-- The key of a negative decimal turns the order of magnitudes around. -/
theorem cmpBytes_flipped (hn : n ≠ 0) (hn' : n' ≠ 0) (s s' : BitVec 32) :
    cmpBytes ((exponentKey n s).map (~~~ ·) ++ (digitKey n).map flipDigit)
      ((exponentKey n' s').map (~~~ ·) ++ (digitKey n').map flipDigit) =
    cmpBytes (magnitudeKey n' s') (magnitudeKey n s) := by
  have hlen : ((exponentKey n s).map (~~~ ·)).length = ((exponentKey n' s').map (~~~ ·)).length := by
    simp [exponentKey, toBeBytes]
  have hnot : ∀ a b : UInt8, compare (~~~a) (~~~b) = compare b a := by
    have hlt : ∀ a b : UInt8, b < a → ~~~a < ~~~b := by
      intro a b h
      have ha := a.toNat_lt
      have hba := UInt8.lt_iff_toNat_lt.mp h
      rw [UInt8.lt_iff_toNat_lt, UInt8.toNat_not, UInt8.toNat_not, UInt8.size]
      omega
    intro a b
    rcases lt_trichotomy b a with h | rfl | h
    · rw [compare_lt_iff_lt.mpr h, compare_lt_iff_lt.mpr (hlt a b h)]
    · rw [compare_eq_iff_eq.mpr rfl, compare_eq_iff_eq.mpr rfl]
    · rw [compare_gt_iff_gt.mpr h, compare_gt_iff_gt.mpr (hlt b a h)]
  rw [cmpBytes, compareLex_append_of_separated (separated_of_length_eq hlen), magnitudeKey, magnitudeKey,
    compareLex_append_of_separated (separated_exponentKey _ _ _ _),
    compareLex_map_anti (separated_exponentKey _ _ _ _) fun a _ b _ => hnot a b,
    compareLex_map_anti (separated_digitKey hn hn') fun a ha b hb =>
      compare_flipDigit a (digitKey_le hn ha) b (digitKey_le hn' hb)]

/-! ## Decimals -/

theorem natAbs_lt (m : BitVec 128) : m.toInt.natAbs < 10 ^ 39 := by
  have h := m.isLt
  rw [BitVec.toInt_eq_toNat_cond]
  split_ifs <;> omega

theorem decimalValue_of_pos (h : 0 < m.toInt) (s : BitVec 32) :
    decimalValue m s = (m.toInt.natAbs : ℚ) / 10 ^ s.toNat := by
  rw [decimalValue, cast_natAbs, abs_of_pos h]

theorem decimalValue_of_neg (h : m.toInt < 0) (s : BitVec 32) :
    decimalValue m s = -((m.toInt.natAbs : ℚ) / 10 ^ s.toNat) := by
  rw [decimalValue, cast_natAbs, abs_of_neg h, ← neg_div]
  push_cast
  rw [neg_neg]

theorem decimalValue_pos (h : 0 < m.toInt) (s : BitVec 32) :
    0 < decimalValue m s := div_pos (by exact_mod_cast h) (by positivity)

theorem decimalValue_neg (h : m.toInt < 0) (s : BitVec 32) :
    decimalValue m s < 0 := div_neg_of_neg_of_pos (by exact_mod_cast h) (by positivity)

theorem cmpBytes_encodeDecimalKey (m m' : BitVec 128) (s s' : BitVec 32) :
    cmpBytes (encodeDecimalKey m s) (encodeDecimalKey m' s') =
      compare (decimalValue m s) (decimalValue m' s') := by
  have hzero : ∀ {m : BitVec 128} {s : BitVec 32}, m.toInt = 0 →
      encodeDecimalKey m s = [0x80] ∧ decimalValue m s = 0 := by
    intro m s h
    exact ⟨if_pos h, by rw [decimalValue, h]; simp⟩
  rcases lt_trichotomy m.toInt 0 with h | h | h <;> rcases lt_trichotomy m'.toInt 0 with h' | h' | h'
  · rw [encodeDecimalKey_of_neg h, encodeDecimalKey_of_neg h', cmpBytes_rank, cmpBytes_flipped
      (by omega) (by omega), cmpBytes_magnitudeKey (by omega) (by omega) (natAbs_lt _) (natAbs_lt _),
      decimalValue_of_neg h, decimalValue_of_neg h', ← cmp_eq_compare, ← cmp_eq_compare,
      StrictAnti.cmp_map_eq fun _ _ => neg_lt_neg]
  · rw [encodeDecimalKey_of_neg h, (hzero h').1, (hzero h').2,
      compare_lt_iff_lt.mpr (decimalValue_neg h s)]
    rfl
  · rw [encodeDecimalKey_of_neg h, encodeDecimalKey_of_pos h',
      compare_lt_iff_lt.mpr ((decimalValue_neg h s).trans (decimalValue_pos h' s'))]
    rfl
  · rw [encodeDecimalKey_of_neg h', (hzero h).1, (hzero h).2,
      compare_gt_iff_gt.mpr (decimalValue_neg h' s')]
    rfl
  · rw [(hzero h).1, (hzero h).2, (hzero h').1, (hzero h').2, compare_eq_iff_eq.mpr rfl]
    rfl
  · rw [encodeDecimalKey_of_pos h', (hzero h).1, (hzero h).2,
      compare_lt_iff_lt.mpr (decimalValue_pos h' s')]
    rfl
  · rw [encodeDecimalKey_of_pos h, encodeDecimalKey_of_neg h',
      compare_gt_iff_gt.mpr ((decimalValue_neg h' s').trans (decimalValue_pos h s))]
    rfl
  · rw [encodeDecimalKey_of_pos h, (hzero h').1, (hzero h').2,
      compare_gt_iff_gt.mpr (decimalValue_pos h s)]
    rfl
  · rw [encodeDecimalKey_of_pos h, encodeDecimalKey_of_pos h', cmpBytes_rank, cmpBytes_magnitudeKey
      (by omega) (by omega) (natAbs_lt _) (natAbs_lt _), decimalValue_of_pos h, decimalValue_of_pos h']

/-- **The bytes of two keys compare as the two decimals**, and are equal exactly if the decimals are. -/
theorem decimalKey_order (m m' : BitVec 128) (s s' : BitVec 32) :
    cmpBytes (encodeDecimalKey m s) (encodeDecimalKey m' s') =
        compare (decimalValue m s) (decimalValue m' s') ∧
      (encodeDecimalKey m s = encodeDecimalKey m' s' ↔ decimalValue m s = decimalValue m' s') := by
  have hcmp := cmpBytes_encodeDecimalKey m m' s s'
  refine ⟨hcmp, ?_⟩
  rw [← compare_eq_iff_eq (a := decimalValue m s), ← hcmp, cmpBytes, Std.LawfulEqCmp.compare_eq_iff_eq]

end UldrenLoom.Tabular
