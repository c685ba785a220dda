import UldrenLoom.Tabular.Value
import UldrenLoom.Lib.PrefixCode

/-!
# Keys sort as values do

* **`cmp_eq_cmpBytes`**: two values compare as their key bytes do.
* **`pk_order_and_prefixFree`**: primary keys compare as their bytes do, and no value's key is a proper prefix of
  another's.
-/

set_option linter.unusedSimpArgs false

namespace UldrenLoom.Tabular

open ByteString PrefixCode List

/-! ## Integers and floats -/

variable {n : ℕ}

theorem xor_two_pow {x : ℕ} (hx : x < 2 ^ (n + 1)) :
    x ^^^ 2 ^ n = if 2 ^ n ≤ x then x - 2 ^ n else x + 2 ^ n := by
  have hp : 0 < 2 ^ n := by positivity
  have hd : (x ^^^ 2 ^ n) / 2 ^ n = x / 2 ^ n ^^^ 1 := by
    rw [Nat.xor_div_two_pow, Nat.div_self hp]
  have hm : (x ^^^ 2 ^ n) % 2 ^ n = x % 2 ^ n := by
    rw [Nat.xor_mod_two_pow, Nat.mod_self, Nat.xor_zero]
  have he := Nat.div_add_mod (x ^^^ 2 ^ n) (2 ^ n)
  have hx' := Nat.div_add_mod x (2 ^ n)
  rw [hd, hm] at he
  rw [pow_succ] at hx
  split_ifs with h
  · have h1 : x / 2 ^ n = 1 := by
      rw [Nat.div_eq_iff hp]; omega
    rw [h1] at he hx'
    simp at he; omega
  · have h0 : x / 2 ^ n = 0 := Nat.div_eq_of_lt (by omega)
    rw [h0] at he hx'
    simp at he; omega

theorem toNat_signFlip (x : BitVec (n + 1)) : ((signFlip x).toNat : ℤ) = x.toInt + 2 ^ n := by
  have hx := x.isLt
  have h2 : (signBit (n + 1)).toNat = 2 ^ n := BitVec.toNat_twoPow_of_lt (by omega)
  have hp : (2 ^ (n + 1) : ℕ) = 2 * 2 ^ n := by rw [pow_succ, mul_comm]
  rw [signFlip, BitVec.toNat_xor, h2, xor_two_pow hx, BitVec.toInt_eq_toNat_cond, hp]
  have hc : ((2 ^ n : ℕ) : ℤ) = 2 ^ n := by push_cast; rfl
  rw [← hc]
  generalize 2 ^ n = p at hx hp ⊢
  split_ifs <;> omega

theorem compare_signFlip (a b : BitVec (n + 1)) :
    compare (signFlip a).toNat (signFlip b).toNat = signedCmp a b := by
  have ha := toNat_signFlip a
  have hb := toNat_signFlip b
  unfold signedCmp
  rcases lt_trichotomy a.toInt b.toInt with h | h | h
  · rw [compare_lt_iff_lt.mpr h, compare_lt_iff_lt]; omega
  · rw [compare_eq_iff_eq.mpr h, compare_eq_iff_eq]; omega
  · rw [compare_gt_iff_gt.mpr h, compare_gt_iff_gt]; omega

theorem and_signBit_ne_zero (x : BitVec (n + 1)) : x &&& signBit (n + 1) ≠ 0 ↔ x.msb = true := by
  rw [signBit, Nat.add_sub_cancel, BitVec.and_twoPow, BitVec.msb_eq_getLsbD_last,
    Nat.add_sub_cancel]
  cases x.getLsbD n with
  | false => simp
  | true =>
    simp only [if_true, iff_true]
    intro h
    have := congrArg (fun b => b.getLsbD n) h
    simp at this

theorem getElem_signMask (x : BitVec (n + 1)) {i : ℕ} (hi : i < n + 1) :
    (x.sshiftRight n >>> 1)[i] = (decide (i < n) && x.msb) := by
  rw [BitVec.getElem_ushiftRight, BitVec.getLsbD_sshiftRight, if_neg (by omega)]
  congr 1
  rw [← decide_not, decide_eq_decide]
  omega

theorem floatKey_eq_signFlip (x : BitVec (n + 1)) :
    floatKey x = signFlip (x ^^^ (x.sshiftRight n >>> 1)) := by
  have hx : x.msb = x[n] := by
    rw [BitVec.msb_eq_getLsbD_last, Nat.add_sub_cancel, BitVec.getLsbD_eq_getElem]
  rw [floatKey, if_congr (and_signBit_ne_zero x) rfl rfl, signFlip, signBit]
  ext i hi
  rw [BitVec.getElem_xor, BitVec.getElem_xor, getElem_signMask, BitVec.getElem_twoPow,
    Nat.add_sub_cancel]
  rcases Nat.lt_or_ge i n with hin | hin
  · cases h : x.msb <;> simp [h, BitVec.getElem_twoPow, hin, hin.ne]
  · obtain rfl : i = n := by omega
    cases h : x.msb <;> simp [h, BitVec.getElem_twoPow, ← hx]

theorem compare_floatKey (a b : BitVec (n + 1)) :
    compare (floatKey a).toNat (floatKey b).toNat = totalCmp a b := by
  rw [floatKey_eq_signFlip, floatKey_eq_signFlip, compare_signFlip]
  rfl

/-! ## Byte strings, lengths and decimals -/

theorem cmpBytes_cons (a b : UInt8) (as bs : Bytes) :
    cmpBytes (a :: as) (b :: bs) = (compare a b).then (cmpBytes as bs) :=
  List.compareLex_cons_cons

theorem cmpBytes_toBeBytes {w : ℕ} (hn : 2 ^ n ≤ 256 ^ w) (a b : BitVec n) :
    cmpBytes (toBeBytes w a) (toBeBytes w b) = compare a.toNat b.toNat :=
  compareLex_beBytes (by have := a.isLt; omega) (by have := b.isLt; omega)

theorem separated_toBeBytes (w : ℕ) (a b : BitVec n) : Separated (toBeBytes w a) (toBeBytes w b) :=
  separated_of_length_eq (by simp [toBeBytes])

theorem separated_orderpreserving (a b : Bytes) :
    Separated (encodeOrderpreservingBytes a) (encodeOrderpreservingBytes b) := by
  induction a generalizing b with
  | nil =>
    cases b with
    | nil => exact separated_of_length_eq rfl
    | cons y b =>
      simp only [encodeOrderpreservingBytes]
      split_ifs with hy
      · exact (separated_cons_of_ne (by decide) _ _).cons _
      · exact separated_cons_of_ne (Ne.symm hy) _ _
  | cons x a ih =>
    cases b with
    | nil =>
      simp only [encodeOrderpreservingBytes]
      split_ifs with hx
      · exact (separated_cons_of_ne (by decide) _ _).cons _
      · exact separated_cons_of_ne hx _ _
    | cons y b =>
      simp only [encodeOrderpreservingBytes]
      split_ifs with hx hy hy
      · exact ((ih b).cons _).cons _
      · exact separated_cons_of_ne (Ne.symm hy) _ _
      · exact separated_cons_of_ne hx _ _
      · by_cases hxy : x = y
        · exact hxy ▸ (ih b).cons _
        · exact separated_cons_of_ne hxy _ _

theorem compare_zero_of_ne {b : UInt8} (h : b ≠ 0) : compare (0 : UInt8) b = .lt := by
  rw [compare_lt_iff_lt, UInt8.lt_iff_toNat_lt]
  exact Nat.pos_of_ne_zero fun h0 => h (UInt8.toNat_inj.mp h0)

theorem compare_ne_zero {b : UInt8} (h : b ≠ 0) : compare b (0 : UInt8) = .gt := by
  rw [compare_gt_iff_gt]
  exact compare_lt_iff_lt.mp (compare_zero_of_ne h)

/-- **Byte stuffing keeps the order**: `00 00` sorts below a stuffed `00 ff`, and that below all
else. -/
theorem cmpBytes_orderpreserving (a b : Bytes) :
    cmpBytes (encodeOrderpreservingBytes a) (encodeOrderpreservingBytes b) = cmpBytes a b := by
  induction a generalizing b with
  | nil =>
    cases b with
    | nil => rfl
    | cons y b =>
      simp only [encodeOrderpreservingBytes]
      split_ifs with hy
      · rfl
      · rw [cmpBytes_cons, compare_zero_of_ne hy]
        rfl
  | cons x a ih =>
    cases b with
    | nil =>
      simp only [encodeOrderpreservingBytes]
      split_ifs with hx
      · rfl
      · rw [cmpBytes_cons, compare_ne_zero hx]
        rfl
    | cons y b =>
      simp only [encodeOrderpreservingBytes]
      split_ifs with hx hy hy
      · subst hx hy
        rw [cmpBytes_cons, cmpBytes_cons, cmpBytes_cons, ih]
        rfl
      · subst hx
        rw [cmpBytes_cons, cmpBytes_cons, compare_zero_of_ne hy]
        rfl
      · subst hy
        rw [cmpBytes_cons, cmpBytes_cons, compare_ne_zero hx]
        rfl
      · rw [cmpBytes_cons, cmpBytes_cons, ih]

theorem toNat_uvarint_last (v : ℕ) : (UInt8.ofNat (v % 128)).toNat = v % 128 := by
  rw [UInt8.toNat_ofNat']; omega

theorem toNat_uvarint_more (v : ℕ) : (UInt8.ofNat (v % 128) ||| 0x80).toNat = v % 128 + 128 := by
  have h : v % 128 < 2 ^ 7 := Nat.mod_lt _ (by decide)
  rw [UInt8.toNat_or, toNat_uvarint_last]
  have := Nat.two_pow_add_eq_or_of_lt h 1
  rw [Nat.or_comm, show (0x80 : UInt8).toNat = 2 ^ 7 * 1 from rfl, ← this]
  omega

theorem separated_putUvarint (v w : ℕ) : Separated (putUvarint v) (putUvarint w) := by
  induction v using Nat.strong_induction_on generalizing w with
  | _ v ih =>
    rw [putUvarint, putUvarint.eq_def w]
    have hv := toNat_uvarint_last v
    have hw := toNat_uvarint_last w
    have hv' := toNat_uvarint_more v
    have hw' := toNat_uvarint_more w
    split_ifs with h h' h'
    · by_cases hb : UInt8.ofNat (v % 128) ||| 0x80 = UInt8.ofNat (w % 128) ||| 0x80
      · exact hb ▸ (ih (v / 128) (by omega) (w / 128)).cons _
      · exact separated_cons_of_ne hb _ _
    · exact separated_cons_of_ne (fun e => by rw [e] at hv'; omega) _ _
    · exact separated_cons_of_ne (fun e => by rw [e] at hv; omega) _ _
    · exact separated_of_length_eq rfl

theorem putUvarint_injective : Function.Injective putUvarint := by
  intro v
  induction v using Nat.strong_induction_on with
  | _ v ih =>
    intro w e
    rw [putUvarint, putUvarint.eq_def w] at e
    have hv := toNat_uvarint_last v
    have hw := toNat_uvarint_last w
    have hv' := toNat_uvarint_more v
    have hw' := toNat_uvarint_more w
    split_ifs at e with h h' h'
    · obtain ⟨e1, e2⟩ := List.cons.inj e
      have := ih (v / 128) (by omega) e2
      rw [e1] at hv'
      omega
    · have e1 := (List.cons.inj e).1
      rw [e1] at hv'; omega
    · have e1 := (List.cons.inj e).1
      rw [e1] at hv; omega
    · have e1 := (List.cons.inj e).1
      rw [e1] at hv; omega

theorem mem_stripZeros {d : UInt8} {ds : Bytes} (h : d ∈ stripZeros ds) : d ∈ ds := by
  cases ds with
  | nil => exact h
  | cons c ds =>
    rcases mem_cons.mp h with rfl | h
    · exact mem_cons_self
    · exact mem_cons_of_mem _ (( rdropWhile_prefix _ _).subset h)

theorem digit_bounds {d : UInt8} (h : d ∈ stripZeros (digitBytes n)) :
    48 ≤ d.toNat ∧ d.toNat ≤ 57 := by
  obtain ⟨c, hc, rfl⟩ := mem_map.mp (mem_stripZeros h)
  have hlt := Nat.digits_lt_base (by decide) (mem_reverse.mp hc)
  rw [UInt8.toNat_add, UInt8.toNat_ofNat', show (48 : UInt8).toNat = 48 from rfl]
  omega

theorem terminator_notMem_up (n : ℕ) :
    (0x00 : UInt8) ∉ (stripZeros (digitBytes n)).map fun d => d - 48 + 1 := by
  intro h
  obtain ⟨d, hd, e⟩ := mem_map.mp h
  obtain ⟨h1, h2⟩ := digit_bounds hd
  have := congrArg UInt8.toNat e
  rw [UInt8.toNat_add, UInt8.toNat_sub] at this
  simp at this
  omega

theorem terminator_notMem_down (n : ℕ) :
    (0xff : UInt8) ∉ (stripZeros (digitBytes n)).map fun d => 10 - (d - 48) := by
  intro h
  obtain ⟨d, hd, e⟩ := mem_map.mp h
  obtain ⟨h1, h2⟩ := digit_bounds hd
  have := congrArg UInt8.toNat e
  rw [UInt8.toNat_sub, UInt8.toNat_sub] at this
  simp at this
  omega

theorem separated_encodeDecimalKey (m m' : BitVec 128) (s s' : BitVec 32) :
    Separated (encodeDecimalKey m s) (encodeDecimalKey m' s') := by
  unfold encodeDecimalKey
  split_ifs
  · exact separated_of_length_eq rfl
  · exact separated_cons_of_ne (by decide) _ _
  · exact separated_cons_of_ne (by decide) _ _
  · exact separated_cons_of_ne (by decide) _ _
  · exact ((separated_toBeBytes 8 _ _).append fun _ =>
      separated_terminated (terminator_notMem_up _) (terminator_notMem_up _)).cons _
  · exact separated_cons_of_ne (by decide) _ _
  · exact separated_cons_of_ne (by decide) _ _
  · exact separated_cons_of_ne (by decide) _ _
  · simp only [append_assoc]
    exact ((separated_of_length_eq (by simp [toBeBytes])).append fun _ =>
      separated_terminated (terminator_notMem_down _) (terminator_notMem_down _)).cons _

theorem separated_encodeInetKey (a b : IpAddr) : Separated (encodeInetKey a) (encodeInetKey b) := by
  cases a <;> cases b
  · exact (separated_toBeBytes 4 _ _).cons _
  · exact separated_cons_of_ne (by decide) _ _
  · exact separated_cons_of_ne (by decide) _ _
  · exact (separated_toBeBytes 16 _ _).cons _

/-! ## Values -/

theorem exists_encodeKeyValue (v : Value) : ∃ t, encodeKeyValue v = v.rank :: t := by
  cases v <;> exact ⟨_, rfl⟩

theorem encodeKeyValue_ne_nil (v : Value) : encodeKeyValue v ≠ [] := by
  obtain ⟨t, ht⟩ := exists_encodeKeyValue v
  rw [ht]
  exact cons_ne_nil _ _

variable {w v : Value}

theorem separated_of_rank_ne (h : v.rank ≠ w.rank) :
    Separated (encodeKeyValue v) (encodeKeyValue w) := by
  obtain ⟨s, hs⟩ := exists_encodeKeyValue v
  obtain ⟨t, ht⟩ := exists_encodeKeyValue w
  rw [hs, ht]
  exact separated_cons_of_ne h _ _

theorem separated_of_rank_eq (h : v.rank = w.rank)
    (hl : ∀ xs ys, v = .list xs → xs.length = ys.length →
      Separated (encodeKeyItems xs) (encodeKeyItems ys))
    (hm : ∀ xs ys, v = .map xs → xs.length = ys.length →
      Separated (encodeKeyEntries xs) (encodeKeyEntries ys)) :
    Separated (encodeKeyValue v) (encodeKeyValue w) := by
  cases v <;> cases w <;> try (simp [Value.rank] at h; done)
  case null.null | bool.bool => exact separated_of_length_eq rfl
  case text.text | bytes.bytes => exact (separated_orderpreserving _ _).cons _
  case decimal.decimal => exact (separated_encodeDecimalKey _ _ _ _).cons _
  case inet.inet => exact (separated_encodeInetKey _ _).cons _
  case interval.interval | point.point =>
    exact ((separated_toBeBytes _ _ _).append fun _ => separated_toBeBytes _ _ _).cons _
  case list.list xs ys =>
    exact ((separated_putUvarint _ _).append fun e =>
      hl xs ys rfl (putUvarint_injective e)).cons _
  case map.map xs ys =>
    exact ((separated_putUvarint _ _).append fun e =>
      hm xs ys rfl (putUvarint_injective e)).cons _
  all_goals exact (separated_toBeBytes _ _ _).cons _

mutual

/-- **Two encodings are equal or part at some position**, by recursion over the first value. -/
theorem separated_encodeKeyValue (v w : Value) :
    Separated (encodeKeyValue v) (encodeKeyValue w) := by
  by_cases h : v.rank = w.rank
  · refine separated_of_rank_eq h ?_ ?_
    · intro xs ys e hlen
      match v with
      | .list items =>
        obtain rfl := Value.list.inj e
        exact separated_encodeKeyItems items ys hlen
    · intro xs ys e hlen
      match v with
      | .map entries =>
        obtain rfl := Value.map.inj e
        exact separated_encodeKeyEntries entries ys hlen
  · exact separated_of_rank_ne h
termination_by structural v

theorem separated_encodeKeyItems (xs ys : List Value) (h : xs.length = ys.length) :
    Separated (encodeKeyItems xs) (encodeKeyItems ys) := by
  match xs, ys with
  | [], [] => exact separated_of_length_eq rfl
  | x :: xs, y :: ys =>
    exact (separated_encodeKeyValue x y).append fun _ =>
      separated_encodeKeyItems xs ys (Nat.succ.inj h)
termination_by structural xs

theorem separated_encodeKeyEntries (xs ys : List (Text × Value)) (h : xs.length = ys.length) :
    Separated (encodeKeyEntries xs) (encodeKeyEntries ys) := by
  match xs, ys with
  | [], [] => exact separated_of_length_eq rfl
  | (k, x) :: xs, (k', y) :: ys =>
    exact (separated_orderpreserving _ _).append fun _ =>
      (separated_encodeKeyValue x y).append fun _ =>
        separated_encodeKeyEntries xs ys (Nat.succ.inj h)
termination_by structural xs

end

/-! ## The order of values -/

theorem cmp_of_rank_ne (h : v.rank ≠ w.rank) :
    v.cmp w = cmpBytes (encodeKeyValue v) (encodeKeyValue w) := by
  have hc : v.cmp w = compare v.rank w.rank := by
    unfold Value.cmp
    split <;> first | rfl | exact absurd rfl h
  obtain ⟨s, hs⟩ := exists_encodeKeyValue v
  obtain ⟨t, ht⟩ := exists_encodeKeyValue w
  rw [hc, hs, ht, cmpBytes_cons]
  cases hr : compare v.rank w.rank with
  | eq => exact absurd (compare_eq_iff_eq.mp hr) h
  | lt => rfl
  | gt => rfl

theorem cmpBytes_rank (r : UInt8) (s t : Bytes) : cmpBytes (r :: s) (r :: t) = cmpBytes s t := by
  rw [cmpBytes_cons, compare_eq_iff_eq.mpr rfl]
  rfl

theorem signedCmp_eq_cmpBytes {w : ℕ} (hn : 2 ^ (n + 1) ≤ 256 ^ w) (a b : BitVec (n + 1)) :
    signedCmp a b = cmpBytes (toBeBytes w (signFlip a)) (toBeBytes w (signFlip b)) := by
  rw [cmpBytes_toBeBytes hn, compare_signFlip]

theorem totalCmp_eq_cmpBytes {w : ℕ} (hn : 2 ^ (n + 1) ≤ 256 ^ w) (a b : BitVec (n + 1)) :
    totalCmp a b = cmpBytes (toBeBytes w (floatKey a)) (toBeBytes w (floatKey b)) := by
  rw [cmpBytes_toBeBytes hn, compare_floatKey]

/-- **Two values compare as their key bytes do.** -/
theorem cmp_eq_cmpBytes (v w : Value) :
    v.cmp w = cmpBytes (encodeKeyValue v) (encodeKeyValue w) := by
  by_cases h : v.rank = w.rank
  · cases v <;> cases w <;> try (simp [Value.rank] at h; done)
    case null.null => rfl
    case bool.bool a b => cases a <;> cases b <;> rfl
    case text.text | bytes.bytes =>
      exact ((cmpBytes_rank _ _ _).trans (cmpBytes_orderpreserving _ _)).symm
    case decimal.decimal | interval.interval | inet.inet | point.point | list.list | map.map => rfl
    case int.int | i8.i8 | i16.i16 | i32.i32 | i128.i128 | date.date | timestamp.timestamp =>
      exact (signedCmp_eq_cmpBytes (by norm_num) _ _).trans (cmpBytes_rank _ _ _).symm
    case float.float | f32.f32 =>
      exact (totalCmp_eq_cmpBytes (by norm_num) _ _).trans (cmpBytes_rank _ _ _).symm
    all_goals exact ((cmpBytes_rank _ _ _).trans (cmpBytes_toBeBytes (by norm_num) _ _)).symm
  · exact cmp_of_rank_ne h

/-- **Primary keys sort as their values do, and concatenate without ambiguity.** -/
theorem pk_order_and_prefixFree :
    (∀ p q : List Value, cmpBytes (encodePkValues p) (encodePkValues q) =
      List.compareLex Value.cmp p q) ∧
    (∀ v w : Value, encodeKeyValue v <+: encodeKeyValue w → encodeKeyValue v = encodeKeyValue w) ∧
    ∀ p q : List Value, encodePkValues p = encodePkValues q →
      p.map encodeKeyValue = q.map encodeKeyValue := by
  refine ⟨fun p q => ?_, prefixFree_of_separated separated_encodeKeyValue, fun p q h =>
    map_eq_of_flatMap_eq separated_encodeKeyValue encodeKeyValue_ne_nil h⟩
  have hc : Value.cmp = fun v w => cmpBytes (encodeKeyValue v) (encodeKeyValue w) :=
    funext fun v => funext fun w => cmp_eq_cmpBytes v w
  rw [hc]
  exact compareLex_flatMap separated_encodeKeyValue encodeKeyValue_ne_nil p q

end UldrenLoom.Tabular
