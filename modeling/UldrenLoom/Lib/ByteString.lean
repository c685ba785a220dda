import Mathlib

/-!
# Byte strings

Byte strings are lists of `UInt8`, ordered lexicographically.

* **`compareLex_eq_compare_beNat`**: on byte strings of one length, the lexicographic comparison is
  the comparison of the numbers read big-endian.
-/

namespace ByteString

open Nat

abbrev Bytes := List UInt8

instance instLinearOrderUInt8 : LinearOrder UInt8 where
  le_refl a := UInt8.le_refl a
  le_trans _ _ _ h1 h2 := UInt8.le_trans h1 h2
  le_antisymm _ _ h1 h2 := UInt8.le_antisymm h1 h2
  le_total a b := UInt8.le_total a b
  lt_iff_le_not_ge a b := by
    rw [UInt8.lt_iff_toNat_lt, UInt8.le_iff_toNat_le, UInt8.le_iff_toNat_le]
    omega
  toDecidableLE := fun a b => inferInstanceAs (Decidable (a ≤ b))
  toDecidableEq := inferInstance
  toDecidableLT := fun a b => inferInstanceAs (Decidable (a < b))

instance instLinearOrderUInt64 : LinearOrder UInt64 where
  le_refl a := UInt64.le_refl a
  le_trans _ _ _ h1 h2 := UInt64.le_trans h1 h2
  le_antisymm _ _ h1 h2 := UInt64.le_antisymm h1 h2
  le_total a b := UInt64.le_total a b
  lt_iff_le_not_ge a b := by
    rw [UInt64.lt_iff_toNat_lt, UInt64.le_iff_toNat_le, UInt64.le_iff_toNat_le]
    omega
  toDecidableLE := fun a b => inferInstanceAs (Decidable (a ≤ b))
  toDecidableEq := inferInstance
  toDecidableLT := fun a b => inferInstanceAs (Decidable (a < b))

instance lawfulBEq {α : Type*} [LinearOrder α] : LawfulBEq α := inferInstance

/-! ## Big-endian and little-endian numbers -/

/-- The low `w` bytes of `n`, most significant first. -/
def beBytes : ℕ → ℕ → Bytes
  | 0, _ => []
  | w + 1, n => UInt8.ofNat (n / 256 ^ w) :: beBytes w n

/-- The number read from a byte string, most significant byte first. -/
def beNat : Bytes → ℕ
  | [] => 0
  | b :: bs => b.toNat * 256 ^ bs.length + beNat bs

@[simp] theorem length_beBytes (w n : ℕ) : (beBytes w n).length = w := by
  induction w with
  | zero => rfl
  | succ w ih => rw [beBytes, List.length_cons, ih]

theorem beNat_lt (bs : Bytes) : beNat bs < 256 ^ bs.length := by
  induction bs with
  | nil => simp [beNat]
  | cons b bs ih =>
    have hb := b.toNat_lt
    rw [beNat, List.length_cons, pow_succ]
    nlinarith

theorem beNat_beBytes (w n : ℕ) : beNat (beBytes w n) = n % 256 ^ w := by
  induction w with
  | zero => simp [beBytes, beNat, mod_one]
  | succ w ih =>
    have hmod : n % (256 ^ w * 256) = n % 256 ^ w + 256 ^ w * (n / 256 ^ w % 256) := mod_mul
    rw [beBytes, beNat, length_beBytes, ih, UInt8.toNat_ofNat', pow_succ 256 w, hmod]
    ring

theorem beNat_beBytes_of_lt {w n : ℕ} (h : n < 256 ^ w) : beNat (beBytes w n) = n := by
  rw [beNat_beBytes, mod_eq_of_lt h]

theorem beBytes_add_mul (w n k : ℕ) : beBytes w (n + 256 ^ w * k) = beBytes w n := by
  induction w generalizing k with
  | zero => rfl
  | succ w ih =>
    have h : n + 256 ^ (w + 1) * k = n + 256 ^ w * (256 * k) := by ring
    rw [beBytes, beBytes, h, ih, add_mul_div_left _ _ (by positivity)]
    congr 1
    apply UInt8.toNat_inj.mp
    simp [UInt8.toNat_ofNat']

theorem beBytes_beNat (bs : Bytes) : beBytes bs.length (beNat bs) = bs := by
  induction bs with
  | nil => rfl
  | cons b bs ih =>
    have hlt := beNat_lt bs
    have hdiv : (b.toNat * 256 ^ bs.length + beNat bs) / 256 ^ bs.length = b.toNat := by
      rw [mul_comm, mul_add_div (by positivity), div_eq_of_lt hlt, add_zero]
    have hlow : beBytes bs.length (b.toNat * 256 ^ bs.length + beNat bs) =
        beBytes bs.length (beNat bs) := by
      rw [add_comm, mul_comm, beBytes_add_mul]
    rw [List.length_cons, beBytes, beNat, hdiv, hlow, ih, UInt8.ofNat_toNat]

/-- The low `w` bytes of `n`, least significant first. -/
def leBytes (w n : ℕ) : Bytes := (beBytes w n).reverse

/-- The number read from a byte string, least significant byte first. -/
def leNat (bs : Bytes) : ℕ := beNat bs.reverse

@[simp] theorem length_leBytes (w n : ℕ) : (leBytes w n).length = w := by simp [leBytes]

theorem leNat_leBytes_of_lt {w n : ℕ} (h : n < 256 ^ w) : leNat (leBytes w n) = n := by
  rw [leNat, leBytes, List.reverse_reverse, beNat_beBytes_of_lt h]

/-! ## The lexicographic order -/

/-- **Big-endian numbers compare as their bytes do.** -/
theorem compareLex_eq_compare_beNat (as bs : Bytes) (hl : as.length = bs.length) :
    List.compareLex compare as bs = compare (beNat as) (beNat bs) := by
  induction as generalizing bs with
  | nil =>
    obtain rfl : bs = [] := List.length_eq_zero_iff.mp hl.symm
    simp [List.compareLex]
  | cons a as ih =>
    obtain _ | ⟨b, bs⟩ := bs
    · simp at hl
    have hl' : as.length = bs.length := by simpa using hl
    have ha := beNat_lt as
    have hb := beNat_lt bs
    rw [List.compareLex_cons_cons, ih bs hl', beNat, beNat, hl'] at *
    rcases lt_trichotomy a b with h | h | h
    · have h' : a.toNat + 1 ≤ b.toNat := UInt8.lt_iff_toNat_lt.mp h
      have : a.toNat * 256 ^ bs.length + beNat as < b.toNat * 256 ^ bs.length + beNat bs := by
        nlinarith [mul_le_mul_right (256 ^ bs.length) h']
      rw [compare_lt_iff_lt.mpr h, compare_lt_iff_lt.mpr this]
      rfl
    · subst h
      rw [compare_eq_iff_eq.mpr rfl, Ordering.then]
      simp only [compare_eq_ite_lt, add_lt_add_iff_left]
    · have h' : b.toNat + 1 ≤ a.toNat := UInt8.lt_iff_toNat_lt.mp h
      have : b.toNat * 256 ^ bs.length + beNat bs < a.toNat * 256 ^ bs.length + beNat as := by
        nlinarith [mul_le_mul_right (256 ^ bs.length) h']
      rw [compare_gt_iff_gt.mpr h, compare_gt_iff_gt.mpr this]
      rfl

theorem compareLex_beBytes {w m n : ℕ} (hm : m < 256 ^ w) (hn : n < 256 ^ w) :
    List.compareLex compare (beBytes w m) (beBytes w n) = compare m n := by
  rw [compareLex_eq_compare_beNat _ _ (by simp), beNat_beBytes_of_lt hm, beNat_beBytes_of_lt hn]

/-! ## Texts -/

def strBytes (s : String) : Bytes := s.toByteArray.data.toList

/-- The text with the given UTF-8 bytes, if they are valid UTF-8. -/
def strOfBytes? (bs : Bytes) : Option String := String.fromUTF8? ⟨bs.toArray⟩

theorem strOfBytes?_strBytes (s : String) : strOfBytes? (strBytes s) = some s := by
  have h : (⟨(strBytes s).toArray⟩ : ByteArray) = s.toByteArray := by simp [strBytes]
  rw [strOfBytes?, h, String.fromUTF8?, dif_pos s.isValidUTF8]
  rfl

theorem strBytes_of_strOfBytes? {bs : Bytes} {s : String} (h : strOfBytes? bs = some s) :
    strBytes s = bs := by
  unfold strOfBytes? String.fromUTF8? at h
  split_ifs at h
  rw [← Option.some.inj h]
  simp [strBytes, String.fromUTF8]

theorem strBytes_injective : Function.Injective strBytes := fun s t h => by
  have := strOfBytes?_strBytes s
  rw [h, strOfBytes?_strBytes] at this
  exact (Option.some.inj this).symm

/-- Texts ordered by their UTF-8 bytes. -/
def Text : Type := String

instance : LinearOrder Text := LinearOrder.lift' strBytes strBytes_injective

instance : Repr Text := inferInstanceAs (Repr String)

end ByteString
