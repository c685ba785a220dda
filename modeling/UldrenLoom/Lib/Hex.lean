import UldrenLoom.Lib.ByteString

/-!
# Hexadecimal text

* **`Hex.decode_encode`**: decoding reads back what was encoded.
-/

namespace Hex

open ByteString

def digit (n : ℕ) : Char := if n < 10 then Char.ofNat (48 + n) else Char.ofNat (87 + n)

def value (c : Char) : Option ℕ :=
  if '0' ≤ c ∧ c ≤ '9' then some (c.toNat - 48)
  else if 'a' ≤ c ∧ c ≤ 'f' then some (c.toNat - 87)
  else if 'A' ≤ c ∧ c ≤ 'F' then some (c.toNat - 55)
  else none

/-- Two lower-case digits for every byte. -/
def encode (bs : Bytes) : List Char :=
  bs.flatMap fun b => [digit (b.toNat / 16), digit (b.toNat % 16)]

/-- The bytes of a text of digits of either case. -/
def decode : List Char → Option Bytes
  | [] => some []
  | [_] => none
  | a :: b :: cs => do
    let x ← value a
    let y ← value b
    let bs ← decode cs
    return UInt8.ofNat (16 * x + y) :: bs

theorem value_digit {n : ℕ} (h : n < 16) : value (digit n) = some n := by
  interval_cases n <;> rfl

theorem decode_encode (bs : Bytes) : decode (encode bs) = some bs := by
  induction bs with
  | nil => rfl
  | cons b bs ih =>
    have hb := b.toNat_lt
    change decode (digit (b.toNat / 16) :: digit (b.toNat % 16) :: encode bs) = _
    rw [decode, value_digit (by omega), value_digit (by omega), ih]
    change some (UInt8.ofNat (16 * (b.toNat / 16) + b.toNat % 16) :: bs) = _
    rw [Nat.div_add_mod, UInt8.ofNat_toNat]

theorem encode_append (as bs : Bytes) : encode (as ++ bs) = encode as ++ encode bs :=
  List.flatMap_append

theorem digit_ne_dash {n : ℕ} (h : n < 16) : digit n ≠ '-' := by
  interval_cases n <;> decide

theorem filter_encode (bs : Bytes) : (encode bs).filter (fun c => !decide (c = '-')) = encode bs := by
  refine List.filter_eq_self.mpr fun c hc => ?_
  obtain ⟨b, -, hb⟩ := List.mem_flatMap.mp hc
  have hlt := b.toNat_lt
  rcases List.mem_pair.mp hb with rfl | rfl
  · simp [digit_ne_dash (show b.toNat / 16 < 16 by omega)]
  · simp [digit_ne_dash (show b.toNat % 16 < 16 by omega)]

end Hex
