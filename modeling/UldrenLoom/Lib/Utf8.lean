import UldrenLoom.Lib.ByteString
import UldrenLoom.Lib.PrefixCode

/-!
# The order of UTF-8

Texts are ordered by their characters as by their bytes.

* **`strBytes_lt_iff`**: lists of characters compare as their encodings.
-/

namespace ByteString

open PrefixCode

/-- The bytes of a character as numbers. -/
def codes (v : ℕ) : List ℕ :=
  if v ≤ 127 then [v]
  else if v ≤ 2047 then [v / 64 % 32 + 192, v % 64 + 128]
  else if v ≤ 65535 then [v / 4096 % 16 + 224, v / 64 % 64 + 128, v % 64 + 128]
  else [v / 262144 % 8 + 240, v / 4096 % 64 + 128, v / 64 % 64 + 128, v % 64 + 128]

theorem codes_lt {v : ℕ} : ∀ n ∈ codes v, n < 256 := by
  unfold codes
  split_ifs <;> simp <;> omega

theorem codes_ne_nil (v : ℕ) : codes v ≠ [] := by
  unfold codes
  split_ifs <;> simp

theorem separated_codes (v w : ℕ) : Separated (codes v) (codes w) := by
  unfold codes
  split_ifs <;> first
    | exact separated_of_length_eq rfl
    | refine separated_cons_of_ne (fun h => ?_) _ _; omega

theorem div_lt_or_mod_lt {v w : ℕ} (h : v < w) :
    v / 64 < w / 64 ∨ v / 64 = w / 64 ∧ v % 64 < w % 64 := by
  omega

theorem compareLex_codes_lt {v w : ℕ} (hw : w < 2097152) (h : v < w) :
    List.compareLex compare (codes v) (codes w) = .lt := by
  unfold codes
  split_ifs <;>
    simp [List.compareLex_cons_cons, Ordering.then_eq_lt, Nat.compare_eq_lt] <;> try omega
  -- Four bytes on both sides: the quotients decide from the front.
  have h2 : ∀ n, n / 4096 = n / 64 / 64 := fun n => (Nat.div_div_eq_div_mul n 64 64).symm
  have h3 : ∀ n, n / 262144 = n / 64 / 64 / 64 := fun n => by
    rw [Nat.div_div_eq_div_mul, Nat.div_div_eq_div_mul]
  rw [h2 v, h2 w, h3 v, h3 w]
  rcases div_lt_or_mod_lt h with h | ⟨h, hd⟩
  · rcases div_lt_or_mod_lt h with h | ⟨h, hd⟩
    · rcases div_lt_or_mod_lt h with h | ⟨h, hd⟩
      · omega
      · exact .inr ⟨by rw [h], .inl hd⟩
    · exact .inr ⟨by rw [h], .inr ⟨by rw [h], .inl hd⟩⟩
  · exact .inr ⟨by rw [h], .inr ⟨by rw [h], .inr ⟨by rw [h], .inl hd⟩⟩⟩

theorem compareLex_codes {v w : ℕ} (hv : v < 2097152) (hw : w < 2097152) :
    List.compareLex compare (codes v) (codes w) = compare v w := by
  rcases lt_trichotomy v w with h | rfl | h
  · rw [compareLex_codes_lt hw h, Nat.compare_eq_lt.mpr h]
  · simp
  · have hlt := compareLex_codes_lt hv h
    rw [Std.OrientedCmp.gt_of_lt hlt, Nat.compare_eq_gt.mpr h]

theorem utf8EncodeChar_eq (c : Char) :
    String.utf8EncodeChar c = (codes c.toNat).map UInt8.ofNat := by
  have hv : c.val.toNat = c.toNat := rfl
  unfold String.utf8EncodeChar codes
  rw [hv]
  dsimp only
  split_ifs <;> rfl

theorem lt_iff_compareLex {α : Type} [LinearOrder α] {a b : List α} :
    a < b ↔ List.compareLex compare a b = .lt := by
  induction a generalizing b with
  | nil => cases b <;> simp [List.compareLex]
  | cons x a ih =>
    cases b with
    | nil => simp [List.compareLex]
    | cons y b =>
      rw [List.cons_lt_cons_iff, List.compareLex_cons_cons, Ordering.then_eq_lt, compare_lt_iff_lt,
        compare_eq_iff_eq, ih]

theorem compare_of_strictMono {α β : Type} [LinearOrder α] [LinearOrder β] {f : α → β}
    (hf : StrictMono f) (a b : α) : compare (f a) (f b) = compare a b := by
  rw [← cmp_eq_compare, ← cmp_eq_compare, hf.cmp_map_eq]

theorem compareLex_map_ofNat {l m : List ℕ} (hl : ∀ n ∈ l, n < 256) (hm : ∀ n ∈ m, n < 256) :
    List.compareLex compare (l.map UInt8.ofNat) (m.map UInt8.ofNat) = List.compareLex compare l m := by
  induction l generalizing m with
  | nil => cases m <;> rfl
  | cons a l ih =>
    cases m with
    | nil => rfl
    | cons b m =>
      obtain ⟨ha, hl⟩ := List.forall_mem_cons.mp hl
      obtain ⟨hb, hm⟩ := List.forall_mem_cons.mp hm
      have hab : compare (UInt8.ofNat a) (UInt8.ofNat b) = compare a b := by
        rw [← compare_of_strictMono (f := UInt8.toNat) fun _ _ => UInt8.lt_iff_toNat_lt.mp,
          UInt8.toNat_ofNat_of_lt' ha, UInt8.toNat_ofNat_of_lt' hb]
      rw [List.map_cons, List.map_cons, List.compareLex_cons_cons, List.compareLex_cons_cons, hab,
        ih hl hm]

theorem strBytes_ofList (p : List Char) :
    strBytes (String.ofList p) = (p.flatMap fun c => codes c.toNat).map UInt8.ofNat := by
  have hcode : ∀ c, String.utf8EncodeChar c = (codes c.toNat).map UInt8.ofNat := utf8EncodeChar_eq
  unfold strBytes
  rw [String.toByteArray_ofList, List.utf8Encode, List.map_flatMap, funext hcode]
  simp

theorem char_toNat_lt (c : Char) : c.toNat < 2097152 := by
  rcases c.valid with h | h
  · exact lt_of_lt_of_le h (by decide)
  · exact h.2.trans (by decide)

/-- **Texts compare by their characters as by their bytes.** -/
theorem strBytes_lt_iff {p q : List Char} :
    strBytes (String.ofList p) < strBytes (String.ofList q) ↔ p < q := by
  have hcodes : ∀ p : List Char, ∀ n ∈ p.flatMap fun c => codes c.toNat, n < 256 := by
    intro p n hn
    obtain ⟨c, -, hn⟩ := List.mem_flatMap.mp hn
    exact codes_lt n hn
  have hchar : ∀ a b : Char,
      List.compareLex compare (codes a.toNat) (codes b.toNat) = compare a b := by
    intro a b
    rw [compareLex_codes (char_toNat_lt a) (char_toNat_lt b)]
    exact compare_of_strictMono (f := Char.toNat) (fun _ _ h => h) a b
  rw [lt_iff_compareLex, lt_iff_compareLex, strBytes_ofList, strBytes_ofList,
    compareLex_map_ofNat (hcodes p) (hcodes q),
    compareLex_flatMap (f := fun c : Char => codes c.toNat)
      (fun a b => separated_codes a.toNat b.toNat) fun a => codes_ne_nil a.toNat]
  simp only [hchar]

/-! ## Byte offsets -/

def byteLen (s : List Char) : ℕ := (s.map Char.utf8Size).sum

/-- A text cut after `k` bytes, if that is between two characters. -/
def splitAtBytes : ℕ → List Char → Option (List Char × List Char)
  | 0, s => some ([], s)
  | _ + 1, [] => none
  | k + 1, c :: cs =>
    if c.utf8Size ≤ k + 1 then (splitAtBytes (k + 1 - c.utf8Size) cs).map fun p => (c :: p.1, p.2)
    else none

theorem byteLen_cons (c : Char) (cs : List Char) : byteLen (c :: cs) = c.utf8Size + byteLen cs := rfl

theorem byteLen_append (a b : List Char) : byteLen (a ++ b) = byteLen a + byteLen b := by
  simp [byteLen]

theorem byteLen_eq_zero {s : List Char} : byteLen s = 0 ↔ s = [] := by
  cases s with
  | nil => simp [byteLen]
  | cons c cs => simp [byteLen_cons, c.utf8Size_pos.ne']

theorem splitAtBytes_eq_some {k : ℕ} {s a b : List Char} :
    splitAtBytes k s = some (a, b) ↔ s = a ++ b ∧ byteLen a = k := by
  induction k, s using splitAtBytes.induct generalizing a with
  | case1 s =>
    rw [splitAtBytes, byteLen_eq_zero]
    grind
  | case2 k =>
    refine ⟨nofun, fun ⟨h, hk⟩ => ?_⟩
    obtain ⟨rfl, rfl⟩ := List.append_eq_nil_iff.mp h.symm
    cases hk
  | case3 k c cs hc ih =>
    rw [splitAtBytes, if_pos hc]
    cases a with
    | nil => simp [byteLen]
    | cons x as => grind [Option.map_eq_some_iff, byteLen_cons]
  | case4 k c cs hc =>
    rw [splitAtBytes, if_neg hc]
    cases a with
    | nil => simp [byteLen]
    | cons x as => grind [byteLen_cons]

end ByteString
