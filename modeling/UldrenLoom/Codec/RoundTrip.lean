import UldrenLoom.Codec.Model
import UldrenLoom.Lib.Fallible
import UldrenLoom.Lib.Lists

/-!
# The codec is a bijection on canonical bytes

* **`value_sound`**: what the reader accepts, the encoder writes back byte for byte.
* **`value_encode`**: what the encoder writes, the reader accepts, and it yields the canonical form.
* **`codec_canonical`**: the two directions on whole byte strings.
-/

set_option linter.unusedSimpArgs false

namespace UldrenLoom.Codec

open ByteString Fallible List Nat

/-! ## Heads -/

theorem head_parts : ∀ (m : Fin 8) (a : Fin 32),
    (UInt8.ofNat m <<< 5 ||| UInt8.ofNat a) >>> 5 = UInt8.ofNat m ∧
      (UInt8.ofNat m <<< 5 ||| UInt8.ofNat a) &&& 0x1f = UInt8.ofNat a := by
  decide

theorem head_join (ib : UInt8) : (ib >>> 5) <<< 5 ||| (ib &&& 0x1f) = ib := by
  have h : ∀ n : Fin 256, (UInt8.ofNat n >>> 5) <<< 5 ||| (UInt8.ofNat n &&& 0x1f) =
      UInt8.ofNat n := by decide +kernel
  have := h ⟨ib.toNat, ib.toNat_lt⟩
  simpa using this

variable {n levels : ℕ} {b buf rest : Bytes}

theorem take_append (hn : b.length = n) (rest : Bytes) :
    Reader.take n (b ++ rest) = .ok (b, rest) := by
  subst hn
  simp [Reader.take]

theorem take_eq_ok : Reader.take n buf = .ok (b, rest) ↔ buf = b ++ rest ∧ b.length = n := by
  constructor
  · intro h
    unfold Reader.take at h
    split_ifs at h with hn
    cases h
    exact ⟨(take_append_drop n buf).symm, by simp [hn]⟩
  · rintro ⟨rfl, hn⟩
    exact take_append hn rest

theorem wideArg_beBytes {w bound : ℕ} (hn : n < 256 ^ w) (hb : bound < n) (rest : Bytes) :
    Reader.wideArg w bound (beBytes w n ++ rest) = .ok (n, rest) := by
  simp [Reader.wideArg, take_append, beNat_beBytes_of_lt hn, hb]

theorem wideArg_eq_ok {w bound : ℕ} (h : Reader.wideArg w bound buf = .ok (n, rest)) :
    buf = beBytes w n ++ rest ∧ bound < n ∧ n < 256 ^ w := by
  obtain ⟨⟨b, buf'⟩, ht, h⟩ := of_bind h
  obtain ⟨hb, h⟩ := ite_error_eq_ok.mp h
  cases h
  obtain ⟨rfl, rfl⟩ := take_eq_ok.mp ht
  exact ⟨by rw [beBytes_beNat], by omega, beNat_lt b⟩

/-- **A head reads back as its major type and argument.** -/
theorem arg_putHead (m : Fin 8) (hn : n < 2 ^ 64) :
    ∃ ib body, putHead (UInt8.ofNat m) n = ib :: body ∧ ib >>> 5 = UInt8.ofNat m ∧
      ∀ rest, Reader.arg (ib &&& 0x1f) (body ++ rest) = .ok (n, rest) := by
  by_cases h₁ : n ≤ 23
  · obtain ⟨hm, ha⟩ := head_parts m ⟨n, by omega⟩
    refine ⟨_, [], by simp [putHead, h₁], hm, fun rest => ?_⟩
    have hle : UInt8.ofNat n ≤ 23 := by
      rw [UInt8.le_iff_toNat_le, UInt8.toNat_ofNat', mod_eq_of_lt (by omega)]
      exact h₁
    rw [ha]
    simp [Reader.arg, hle, mod_eq_of_lt (show n < 256 by omega)]
  by_cases h₂ : n ≤ 0xff
  · obtain ⟨hm, ha⟩ := head_parts m ⟨24, by omega⟩
    refine ⟨_, [UInt8.ofNat n], by simp [putHead, h₁, h₂], hm, fun rest => ?_⟩
    have hmod : n % 256 = n := mod_eq_of_lt (by omega)
    rw [ha]
    change (if (UInt8.ofNat n).toNat < 24 then Except.error CodecError.nonMinimalInt
      else .ok ((UInt8.ofNat n).toNat, rest)) = .ok (n, rest)
    rw [UInt8.toNat_ofNat', hmod, if_neg (by omega)]
  by_cases h₃ : n ≤ 0xffff
  · obtain ⟨hm, ha⟩ := head_parts m ⟨25, by omega⟩
    refine ⟨_, beBytes 2 n, by simp [putHead, h₁, h₂, h₃], hm, fun rest => ?_⟩
    rw [ha]
    exact wideArg_beBytes (by omega) (by omega) rest
  by_cases h₄ : n ≤ 0xffffffff
  · obtain ⟨hm, ha⟩ := head_parts m ⟨26, by omega⟩
    refine ⟨_, beBytes 4 n, by simp [putHead, h₁, h₂, h₃, h₄], hm, fun rest => ?_⟩
    rw [ha]
    exact wideArg_beBytes (by omega) (by omega) rest
  · obtain ⟨hm, ha⟩ := head_parts m ⟨27, by omega⟩
    refine ⟨_, beBytes 8 n, by simp [putHead, h₁, h₂, h₃, h₄], hm, fun rest => ?_⟩
    rw [ha]
    exact wideArg_beBytes (by omega) (by omega) rest

variable {ib : UInt8}

/-- **An accepted head is the one the encoder writes.** -/
theorem putHead_of_arg (h : Reader.arg (ib &&& 0x1f) buf = .ok (n, rest)) :
    ib :: buf = putHead (ib >>> 5) n ++ rest ∧ n < 2 ^ 64 := by
  have hj := head_join ib
  generalize ib &&& 0x1f = ai at h hj
  unfold Reader.arg at h
  split_ifs at h with h₁ h₂ h₃ h₄ h₅
  · cases h
    have h₁' : ai.toNat ≤ 23 := UInt8.le_iff_toNat_le.mp h₁
    refine ⟨?_, by omega⟩
    rw [← hj]
    simp [putHead, h₁', hj]
  · obtain ⟨⟨b, buf'⟩, hb, h⟩ := of_bind h
    obtain ⟨h24, h⟩ := ite_error_eq_ok.mp h
    cases h
    have hlt := b.toNat_lt
    obtain _ | ⟨c, cs⟩ := buf
    · simp [Reader.byte] at hb
    obtain ⟨rfl, rfl⟩ := Prod.mk.inj (Except.ok.inj hb)
    subst h₂
    refine ⟨?_, by omega⟩
    simp [putHead, show ¬ c.toNat ≤ 23 by omega, show c.toNat ≤ 255 by omega, hj]
  all_goals
    obtain ⟨rfl, hb, hlt⟩ := wideArg_eq_ok h
    refine ⟨?_, by omega⟩
    first | subst h₃ | subst h₄ | subst h₅
    rw [← hj]
    unfold putHead
    repeat' first | rw [if_pos (by omega)] | rw [if_neg (by omega)]
    simp [hj]

/-! ## What the reader accepts, the encoder writes -/

theorem consumed_append (b rest : Bytes) : Reader.consumed (b ++ rest) rest = b := by
  simp [Reader.consumed]

theorem checkKey_eq_ok {prev : Option Bytes} {key : Bytes} :
    Reader.checkKey prev key = .ok () ↔ ∀ p ∈ prev, p < key := by
  cases prev with
  | none => simp [Reader.checkKey]
  | some p =>
    simp only [Reader.checkKey]
    split_ifs with h₁ h₂ <;> simp [h₁]

theorem hasDuplicateKey_eq_false {ps : List (Bytes × Bytes)}
    (h : ps.Pairwise fun a b => a.1 < b.1) : hasDuplicateKey ps = false := by
  induction ps with
  | nil => rfl
  | cons a ps ih =>
    cases ps with
    | nil => rfl
    | cons b ps =>
      have hab := rel_of_pairwise_cons h mem_cons_self
      rw [hasDuplicateKey, ih h.of_cons]
      simp [hab.ne]

theorem pairwise_lt_of_sorted {ps : List (Bytes × Bytes)}
    (h : ps.Pairwise fun a b => a.1 ≤ b.1) (hd : hasDuplicateKey ps = false) :
    ps.Pairwise fun a b => a.1 < b.1 := by
  induction ps with
  | nil => exact List.Pairwise.nil
  | cons a ps ih =>
    cases ps with
    | nil => simp
    | cons b ps =>
      rw [hasDuplicateKey, Bool.or_eq_false_iff, beq_eq_false_iff_ne] at hd
      have hlt := ih h.of_cons hd.2
      have hab : a.1 < b.1 := lt_of_le_of_ne (rel_of_pairwise_cons h mem_cons_self) hd.1
      exact pairwise_cons.mpr ⟨forall_mem_cons.mpr
        ⟨hab, fun c hc => hab.trans (rel_of_pairwise_cons hlt hc)⟩, hlt⟩

/-- What one reader call guarantees: the bytes it used are the value's canonical form. -/
def Sound (levels : ℕ) (rd : Bytes → Except CodecError (Value × Bytes)) : Prop :=
  ∀ buf v rest, rd buf = .ok (v, rest) →
    ∃ b, buf = b ++ rest ∧ encode v = .ok b ∧ Sized v ∧ depth v < levels

variable {rd : Bytes → Except CodecError (Value × Bytes)}

theorem items_sound {levels : ℕ}
    (hrd : Sound levels rd) : ∀ (n : ℕ) (buf rest : Bytes) (vs : List Value),
    Reader.items rd n buf = .ok (vs, rest) →
      ∃ b, buf = b ++ rest ∧ encodeItems vs = .ok b ∧ vs.length = n ∧ SizedItems vs ∧
        depthItems vs ≤ levels
  | 0, buf, rest, vs, h => by
    cases h
    exact ⟨[], rfl, rfl, rfl, trivial, zero_le _⟩
  | n + 1, buf, rest, vs, h => by
    rw [Reader.items] at h
    obtain ⟨⟨v, buf₁⟩, hv, h⟩ := of_bind h
    obtain ⟨⟨ws, buf₂⟩, hws, h⟩ := of_bind h
    cases h
    obtain ⟨b, rfl, heb, hsv, hdv⟩ := hrd _ _ _ hv
    obtain ⟨bs, rfl, hebs, hl, hss, hds⟩ := items_sound hrd n _ _ _ hws
    refine ⟨b ++ bs, by simp, ?_, by simp [hl], ⟨hsv, hss⟩, ?_⟩
    · rw [encodeItems, heb, hebs]; rfl
    · rw [depthItems]; omega

theorem pairs_sound {levels : ℕ}
    (hrd : Sound levels rd) : ∀ (n : ℕ) (prev : Option Bytes) (buf rest : Bytes)
    (ps : List (Value × Value)), Reader.pairs rd n prev buf = .ok (ps, rest) →
      ∃ bs, buf = bs.flatMap (fun p => p.1 ++ p.2) ++ rest ∧ encodePairs ps = .ok bs ∧
        bs.length = n ∧ ps.length = n ∧ (bs.Pairwise fun a b => a.1 < b.1) ∧
        (∀ p ∈ prev, ∀ b ∈ bs, p < b.1) ∧ SizedPairs ps ∧ depthPairs ps ≤ levels
  | 0, prev, buf, rest, ps, h => by
    cases h
    exact ⟨[], rfl, rfl, rfl, rfl, List.Pairwise.nil, by simp, trivial, zero_le _⟩
  | n + 1, prev, buf, rest, ps, h => by
    rw [Reader.pairs] at h
    obtain ⟨⟨k, buf₁⟩, hk, h⟩ := of_bind h
    obtain ⟨⟨⟩, hc, h⟩ := of_bind h
    obtain ⟨⟨v, buf₂⟩, hv, h⟩ := of_bind h
    obtain ⟨⟨qs, buf₃⟩, hqs, h⟩ := of_bind h
    cases h
    obtain ⟨kb, rfl, hek, hsk, hdk⟩ := hrd _ _ _ hk
    obtain ⟨vb, rfl, hev, hsv, hdv⟩ := hrd _ _ _ hv
    rw [consumed_append] at hc hqs
    obtain ⟨bs, rfl, hebs, hl, hl', hlt, hprev, hss, hds⟩ := pairs_sound hrd n _ _ _ _ hqs
    have hkb : ∀ b ∈ bs, kb < b.1 := hprev kb rfl
    refine ⟨(kb, vb) :: bs, by simp, ?_, by simp [hl], by simp [hl'],
      pairwise_cons.mpr ⟨hkb, hlt⟩, fun p hp b hb => ?_, ⟨hsk, hsv, hss⟩, ?_⟩
    · rw [encodePairs, hek, hev, hebs]; rfl
    · have hpk := checkKey_eq_ok.mp hc p hp
      rcases mem_cons.mp hb with rfl | hb
      · exact hpk
      · exact hpk.trans (hkb b hb)
    · rw [depthPairs]; omega

theorem isZero_iff (f : UInt64) : isZero f = true ↔ f = 0 ∨ f = 0x8000000000000000 := by
  have hlt := f.toNat_lt
  have hs : (f <<< 1).toNat = f.toNat * 2 % 2 ^ 64 := by
    rw [UInt64.toNat_shiftLeft, shiftLeft_eq]; rfl
  simp only [isZero, beq_iff_eq, ← UInt64.toNat_inj, hs]
  change _ = 0 ↔ _ = 0 ∨ _ = 0x8000000000000000
  omega

theorem normalized_of_accepted {f : UInt64} (h : (isZero f && isSignNegative f) = false) :
    normalized f = f := by
  unfold normalized
  split_ifs with hz
  · rcases (isZero_iff f).mp hz with rfl | rfl
    · rfl
    · exact absurd h (by decide)
  · rfl

variable {v : Value}

theorem simpleOrFloat_sound (hib : ib >>> 5 = 7)
    (h : Reader.simpleOrFloat (ib &&& 0x1f) buf = .ok (v, rest)) :
    ∃ b, ib :: buf = b ++ rest ∧ encode v = .ok b ∧ Sized v ∧ depth v = 0 := by
  have hj := head_join ib
  rw [hib] at hj
  generalize ib &&& 0x1f = ai at h hj
  unfold Reader.simpleOrFloat at h
  split_ifs at h with h₁ h₂ h₃ h₄ h₅
  · cases h
    subst h₁ hj
    exact ⟨_, rfl, rfl, trivial, rfl⟩
  · cases h
    subst h₂ hj
    exact ⟨_, rfl, rfl, trivial, rfl⟩
  · cases h
    subst h₃ hj
    exact ⟨_, rfl, rfl, trivial, rfl⟩
  · obtain ⟨⟨b, buf'⟩, ht, h⟩ := of_bind h
    obtain ⟨hf, h⟩ := ite_error_eq_ok.mp h
    cases h
    obtain ⟨rfl, hl⟩ := take_eq_ok.mp ht
    rw [Bool.or_eq_true, not_or, Bool.not_eq_true, Bool.not_eq_true, Bool.not_eq_false'] at hf
    have hlt : beNat b < 2 ^ 64 := by have := beNat_lt b; rw [hl] at this; omega
    subst h₅ hj
    refine ⟨0xfb :: b, rfl, ?_, trivial, rfl⟩
    rw [encode, if_pos hf.1, normalized_of_accepted hf.2, UInt64.toNat_ofNat',
      mod_eq_of_lt hlt, ← hl, beBytes_beNat]

theorem toNat_shiftRight_five (ib : UInt8) : (ib >>> 5).toNat < 8 := by
  have := ib.toNat_lt
  rw [UInt8.toNat_shiftRight, shiftRight_eq_div_pow]
  change ib.toNat / 2 ^ 5 < 8
  omega

theorem toNat_ofNat_of_lt (h : n < 2 ^ 64) : (UInt64.ofNat n).toNat = n := by
  rw [UInt64.toNat_ofNat', mod_eq_of_lt h]

theorem shiftRight_five_eq (h : (ib >>> 5).toNat = n) : ib >>> 5 = UInt8.ofNat n := by
  rw [← h, UInt8.ofNat_toNat]

theorem arg_bind_eq_ok {α : Type} {f : ℕ × Bytes → Except CodecError α} {a : α} {m : ℕ}
    (hm : (ib >>> 5).toNat = m) (h : (Reader.arg (ib &&& 0x1f) buf >>= f) = .ok a) :
    ∃ n rest, ib :: buf = putHead (UInt8.ofNat m) n ++ rest ∧ n < 2 ^ 64 ∧ f (n, rest) = .ok a := by
  obtain ⟨⟨n, rest⟩, ha, h⟩ := of_bind h
  obtain ⟨he, hn⟩ := putHead_of_arg ha
  exact ⟨n, rest, shiftRight_five_eq hm ▸ he, hn, h⟩

/-- **What the reader accepts, the encoder writes back byte for byte.** -/
theorem value_sound : ∀ levels, Sound levels (Reader.value levels)
  | 0, _, _, _, h => by simp [Reader.value] at h
  | _ + 1, [], _, _, h => by simp [Reader.value, Reader.byte] at h
  | levels + 1, c :: cs, v, rest, h => by
    replace h : Reader.body (Reader.value levels) c cs = .ok (v, rest) := h
    -- one case per major type; in each the head is the one `putHead` writes
    unfold Reader.body at h
    split at h
    iterate 2
      rename_i hm
      obtain ⟨n, buf₁, he, hn, h⟩ := arg_bind_eq_ok hm h
      cases h
      exact ⟨_, he, by rw [encode, toNat_ofNat_of_lt hn]; rfl, trivial, succ_pos _⟩
    · rename_i hm
      obtain ⟨n, buf₁, he, hn, h⟩ := arg_bind_eq_ok hm h
      obtain ⟨⟨b, buf₂⟩, ht, h⟩ := of_bind h
      cases h
      obtain ⟨rfl, rfl⟩ := take_eq_ok.mp ht
      exact ⟨putHead 2 b.length ++ b, by rw [he, append_assoc]; rfl, rfl, hn, succ_pos _⟩
    · rename_i hm
      obtain ⟨n, buf₁, he, hn, h1⟩ := arg_bind_eq_ok hm h
      obtain ⟨⟨b, buf₂⟩, ht, h2⟩ := of_bind h1
      dsimp only at h2
      obtain ⟨rfl, rfl⟩ := take_eq_ok.mp ht
      split at h2
      · rename_i s hs
        cases h2
        have hsb := strBytes_of_strOfBytes? hs
        refine ⟨putHead 3 b.length ++ b, by rw [he, append_assoc]; rfl, ?_, ?_, succ_pos _⟩
        · rw [encode, hsb]
        · rw [Sized, hsb]; exact hn
      · simp at h2
    · rename_i hm
      obtain ⟨n, buf₁, he, hn, h⟩ := arg_bind_eq_ok hm h
      obtain ⟨⟨vs, buf₂⟩, hi, h⟩ := of_bind h
      cases h
      obtain ⟨b, rfl, heb, rfl, hss, hds⟩ := items_sound (value_sound levels) _ _ _ _ hi
      refine ⟨_, by rw [he, append_assoc], ?_, ⟨hn, hss⟩, ?_⟩
      · rw [encode, heb]; rfl
      · rw [depth]; exact lt_succ_of_le hds
    · rename_i hm
      obtain ⟨n, buf₁, he, hn, h⟩ := arg_bind_eq_ok hm h
      obtain ⟨⟨ps, buf₂⟩, hp, h⟩ := of_bind h
      cases h
      obtain ⟨bs, rfl, hebs, hl, rfl, hlt, -, hss, hds⟩ :=
        pairs_sound (value_sound levels) _ _ _ _ _ hp
      have hsort : sortPairs bs = bs := (hlt.imp fun h => h.le).insertionSort_eq
      refine ⟨_, by rw [he, append_assoc], ?_, ⟨hn, hss⟩, ?_⟩
      · simp only [encode, hebs, ok_bind, hsort, hasDuplicateKey_eq_false hlt, hl]; rfl
      · rw [depth]; exact lt_succ_of_le hds
    · simp at h
    · rename_i h0 h1 h2 h3 h4 h5 h6
      have h8 := toNat_shiftRight_five c
      have hm : (c >>> 5).toNat = 7 := by
        generalize (c >>> 5).toNat = m at *
        simp only [imp_false] at *
        omega
      obtain ⟨b, he, heb, hs, hd⟩ := simpleOrFloat_sound (shiftRight_five_eq hm) h
      exact ⟨b, he, heb, hs, by omega⟩

/-! ## What the encoder writes, the reader accepts -/

/-- `b` reads as `v`, whatever follows it. -/
def ReadsAs (levels : ℕ) (v : Value) (b : Bytes) : Prop :=
  ∀ rest, Reader.value levels (b ++ rest) = .ok (v, rest)

theorem value_putHead (m : Fin 8) (hn : n < 2 ^ 64) (levels : ℕ) (rest : Bytes) :
    ∃ (ib : UInt8) (buf : Bytes), (ib >>> 5).toNat = m ∧
      Reader.arg (ib &&& 0x1f) buf = .ok (n, rest) ∧
      Reader.value (levels + 1) (putHead (UInt8.ofNat m) n ++ rest) =
        Reader.body (Reader.value levels) ib buf := by
  obtain ⟨ib, body, he, hm, ha⟩ := arg_putHead m hn
  refine ⟨ib, body ++ rest, ?_, ha rest, by rw [he]; rfl⟩
  rw [hm, UInt8.toNat_ofNat', mod_eq_of_lt (by omega)]

theorem value_float_head (levels : ℕ) (buf : Bytes) :
    Reader.value (levels + 1) (0xfb :: buf) = Reader.simpleOrFloat 27 buf := rfl

theorem simpleOrFloat_float {f : UInt64} (hf : isFinite f = true)
    (hz : (isZero f && isSignNegative f) = false) (rest : Bytes) :
    Reader.simpleOrFloat 27 (beBytes 8 f.toNat ++ rest) = .ok (.float f, rest) := by
  have hlt : f.toNat < 256 ^ 8 := by have := f.toNat_lt; omega
  have ht : Reader.take 8 (beBytes 8 f.toNat ++ rest) = .ok (beBytes 8 f.toNat, rest) :=
    take_append (length_beBytes _ _) rest
  have hu : UInt64.ofNat (beNat (beBytes 8 f.toNat)) = f := by
    rw [beNat_beBytes_of_lt hlt, UInt64.ofNat_toNat]
  rw [Reader.simpleOrFloat, if_neg (by decide), if_neg (by decide), if_neg (by decide),
    if_neg (by decide), if_pos rfl, ht, ok_bind]
  simp only [hu, hf, hz]
  rfl

theorem readsAs_float {bits : UInt64} (hf : isFinite bits = true) (levels : ℕ) :
    ReadsAs (levels + 1) (.float (normalized bits)) (0xfb :: beBytes 8 (normalized bits).toNat) := by
  intro rest
  rw [cons_append, value_float_head]
  apply simpleOrFloat_float
  · unfold normalized; split_ifs
    · decide
    · exact hf
  · unfold normalized; split_ifs with h
    · decide
    · simp [h]

theorem readsAs_uint (n : UInt64) (levels : ℕ) :
    ReadsAs (levels + 1) (.uint n) (putHead 0 n.toNat) := by
  intro rest
  obtain ⟨ib, buf, hm, ha, h⟩ := value_putHead 0 n.toNat_lt levels rest
  refine h.trans ?_
  simp only [Reader.body, hm, ha, ok_bind]
  simp

theorem readsAs_nint (n : UInt64) (levels : ℕ) :
    ReadsAs (levels + 1) (.nint n) (putHead 1 n.toNat) := by
  intro rest
  obtain ⟨ib, buf, hm, ha, h⟩ := value_putHead 1 n.toNat_lt levels rest
  refine h.trans ?_
  simp only [Reader.body, hm, ha, ok_bind]
  simp

theorem readsAs_bytes (hb : b.length < 2 ^ 64) (levels : ℕ) :
    ReadsAs (levels + 1) (.bytes b) (putHead 2 b.length ++ b) := by
  intro rest
  obtain ⟨ib, buf, hm, ha, h⟩ := value_putHead 2 hb levels (b ++ rest)
  rw [append_assoc]
  refine h.trans ?_
  simp only [Reader.body, hm, ha, ok_bind, take_append rfl]
  rfl

theorem readsAs_text {s : String} (hs : (strBytes s).length < 2 ^ 64) (levels : ℕ) :
    ReadsAs (levels + 1) (.text s) (putHead 3 (strBytes s).length ++ strBytes s) := by
  intro rest
  obtain ⟨ib, buf, hm, ha, h⟩ := value_putHead 3 hs levels (strBytes s ++ rest)
  rw [append_assoc]
  refine h.trans ?_
  simp only [Reader.body, hm, ha, ok_bind, take_append rfl, strOfBytes?_strBytes]
  rfl

variable {vs : List Value}

theorem readsAs_array (hl : vs.length < 2 ^ 64)
    (h : ∀ rest, Reader.items (Reader.value levels) vs.length (b ++ rest) = .ok (vs, rest)) :
    ReadsAs (levels + 1) (.array vs) (putHead 4 vs.length ++ b) := by
  intro rest
  obtain ⟨ib, buf, hm, ha, he⟩ := value_putHead 4 hl levels (b ++ rest)
  rw [append_assoc]
  refine he.trans ?_
  simp only [Reader.body, hm, ha, ok_bind, h rest]
  rfl

/-- A pair of byte strings reads as a pair of values, and the first holds the key's own bytes. -/
def PairReadsAs (levels : ℕ) (p : Value × Value) (b : Bytes × Bytes) : Prop :=
  encode p.1 = .ok b.1 ∧ ReadsAs levels p.1 b.1 ∧ ReadsAs levels p.2 b.2

variable {ps : List (Value × Value)} {bs : List (Bytes × Bytes)}

theorem pairs_of_forall₂ (h : List.Forall₂ (PairReadsAs levels) ps bs)
    (hlt : bs.Pairwise fun a b => a.1 < b.1) (prev : Option Bytes)
    (hprev : ∀ p ∈ prev, ∀ b ∈ bs, p < b.1) (rest : Bytes) :
    Reader.pairs (Reader.value levels) bs.length prev (bs.flatMap (fun p => p.1 ++ p.2) ++ rest) =
      .ok (ps, rest) := by
  induction h generalizing prev with
  | nil => rfl
  | @cons p b ps bs hp _ ih =>
    obtain ⟨-, hk, hv⟩ := hp
    have hc : Reader.checkKey prev b.1 = .ok () :=
      checkKey_eq_ok.mpr fun q hq => hprev q hq b mem_cons_self
    have hrest := ih hlt.of_cons (some b.1) (by
      intro q hq c hc
      rw [← Option.some.inj hq]
      exact rel_of_pairwise_cons hlt hc)
    simp only [length_cons, Reader.pairs, flatMap_cons, append_assoc, hk _, ok_bind,
      consumed_append, hc, hv _, hrest]

theorem readsAs_map (hl : bs.length < 2 ^ 64) (h : List.Forall₂ (PairReadsAs levels) ps bs)
    (hlt : bs.Pairwise fun a b => a.1 < b.1) :
    ReadsAs (levels + 1) (.map ps) (putHead 5 bs.length ++ bs.flatMap fun p => p.1 ++ p.2) := by
  intro rest
  obtain ⟨ib, buf, hm, ha, he⟩ := value_putHead 5 hl levels
    (bs.flatMap (fun p => p.1 ++ p.2) ++ rest)
  rw [append_assoc]
  refine he.trans ?_
  simp only [Reader.body, hm, ha, ok_bind, pairs_of_forall₂ h hlt none (by simp) rest]
  rfl

theorem encode_of_readsAs (h : ReadsAs levels v b) : encode v = .ok b := by
  have hb := h []
  rw [append_nil] at hb
  obtain ⟨b', he, henc, -⟩ := value_sound levels _ _ _ hb
  rwa [he, append_nil]

theorem keyBytes_of_encode (h : encode v = .ok b) : keyBytes v = b := by
  unfold keyBytes
  rw [h]

theorem canonItems_length (vs : List Value) : (canonItems vs).length = vs.length := by
  induction vs with
  | nil => rfl
  | cons v vs ih => rw [canonItems, length_cons, length_cons, ih]

theorem encodePairs_length : ∀ {ps : List (Value × Value)} {bs : List (Bytes × Bytes)},
    encodePairs ps = .ok bs → bs.length = ps.length
  | [], bs, h => by rw [← Except.ok.inj h]; rfl
  | (k, v) :: ps, bs, h => by
    rw [encodePairs] at h
    obtain ⟨kb, -, h⟩ := of_bind h
    obtain ⟨vb, -, h⟩ := of_bind h
    obtain ⟨cs, hcs, h⟩ := of_bind h
    rw [← Except.ok.inj h, length_cons, length_cons, encodePairs_length hcs]

mutual

/-- **What the encoder writes, the reader accepts**, and it yields the canonical form. -/
theorem value_encode : ∀ (v : Value) {levels : ℕ} {b : Bytes}, Sized v → depth v < levels →
    encode v = .ok b → ReadsAs levels (canon v) b
  | .uint n, levels + 1, b, _, _, h => by
    rw [← Except.ok.inj h]; exact readsAs_uint n levels
  | .nint n, levels + 1, b, _, _, h => by
    rw [← Except.ok.inj h]; exact readsAs_nint n levels
  | .bytes b', levels + 1, b, hs, _, h => by
    rw [← Except.ok.inj h]; exact readsAs_bytes hs levels
  | .text s, levels + 1, b, hs, _, h => by
    rw [← Except.ok.inj h]; exact readsAs_text hs levels
  | .array vs, levels + 1, b, hs, hd, h => by
    rw [encode] at h
    obtain ⟨bs, hbs, h⟩ := of_bind h
    rw [← Except.ok.inj h, canon, ← canonItems_length vs]
    refine readsAs_array (by rw [canonItems_length]; exact hs.1) fun rest => ?_
    rw [canonItems_length]
    exact items_encode vs hs.2 (le_of_lt_succ hd) hbs rest
  | .map ps, levels + 1, b, hs, hd, h => by
    rw [encode] at h
    obtain ⟨bs, hbs, h⟩ := of_bind h
    obtain ⟨hdup, h⟩ := ite_error_eq_ok.mp h
    have hrel := pairs_encode ps hs.2 (le_of_lt_succ hd) hbs
    have hlen : (sortPairs bs).length < 2 ^ 64 := by
      rw [sortPairs, length_insertionSort, encodePairs_length hbs]; exact hs.1
    have hsorted : (sortPairs bs).Pairwise fun a b => a.1 ≤ b.1 :=
      pairwise_insertionSort (fun a b : Bytes × Bytes => a.1 ≤ b.1) bs
    rw [← Except.ok.inj h, canon]
    refine readsAs_map hlen ?_ (pairwise_lt_of_sorted hsorted (by simpa using hdup))
    -- the two sorts agree: a canonical key is ordered by the bytes it was encoded to
    refine Lists.forall₂_insertionSort (fun p p' q q' hp hp' => ?_) hrel
    rw [keyBytes_of_encode hp.1, keyBytes_of_encode hp'.1]
  | .float bits, levels + 1, b, _, _, h => by
    rw [encode] at h
    split_ifs at h with hf
    rw [← Except.ok.inj h]; exact readsAs_float hf levels
  | .bool true, levels + 1, b, _, _, h | .bool false, levels + 1, b, _, _, h
  | .null, levels + 1, b, _, _, h => by rw [← Except.ok.inj h]; exact fun _ => rfl
termination_by structural v => v

theorem items_encode : ∀ (vs : List Value) {levels : ℕ} {b : Bytes}, SizedItems vs →
    depthItems vs ≤ levels → encodeItems vs = .ok b → ∀ rest,
      Reader.items (Reader.value levels) vs.length (b ++ rest) = .ok (canonItems vs, rest)
  | [], levels, b, _, _, h, rest => by rw [← Except.ok.inj h]; rfl
  | v :: vs, levels, b, hs, hd, h, rest => by
    rw [encodeItems] at h
    obtain ⟨b1, h₁, h⟩ := of_bind h
    obtain ⟨b2, h₂, h⟩ := of_bind h
    rw [depthItems] at hd
    have hv := value_encode v hs.1 (show depth v < levels by omega) h₁
    have hvs := items_encode vs hs.2 (show depthItems vs ≤ levels by omega) h₂
    rw [← Except.ok.inj h, append_assoc, length_cons, Reader.items, hv, ok_bind]
    simp only [hvs, ok_bind]
    rfl
termination_by structural vs => vs

theorem pairs_encode : ∀ (ps : List (Value × Value)) {levels : ℕ} {bs : List (Bytes × Bytes)},
    SizedPairs ps → depthPairs ps ≤ levels → encodePairs ps = .ok bs →
      List.Forall₂ (PairReadsAs levels) (canonPairs ps) bs
  | [], levels, bs, _, _, h => by rw [← Except.ok.inj h]; exact .nil
  | (k, v) :: ps, levels, bs, hs, hd, h => by
    rw [encodePairs] at h
    obtain ⟨kb, hk, h⟩ := of_bind h
    obtain ⟨vb, hv, h⟩ := of_bind h
    obtain ⟨cs, hcs, h⟩ := of_bind h
    rw [depthPairs] at hd
    have hrk := value_encode k hs.1 (show depth k < levels by omega) hk
    have hrv := value_encode v hs.2.1 (show depth v < levels by omega) hv
    have hrest := pairs_encode ps hs.2.2 (show depthPairs ps ≤ levels by omega) hcs
    rw [← Except.ok.inj h, canonPairs]
    exact .cons ⟨encode_of_readsAs hrk, hrk, hrv⟩ hrest
termination_by structural ps => ps

end

/-! ## The two directions -/

theorem encode_of_decode (h : decode b = .ok v) :
    encode v = .ok b ∧ Sized v ∧ depth v ≤ maxDepth := by
  obtain ⟨⟨w, rest⟩, hw, h⟩ := of_bind h
  dsimp only at h
  split_ifs at h with hr
  cases h
  obtain ⟨b', rfl, he, hs, hd⟩ := value_sound _ _ _ _ hw
  rw [hr, append_nil]
  exact ⟨he, hs, le_of_lt_succ hd⟩

theorem decode_of_encode (hs : Sized v) (hd : depth v ≤ maxDepth) (h : encode v = .ok b) :
    decode b = .ok (canon v) := by
  have hr := value_encode v hs (lt_succ_of_le hd) h []
  rw [append_nil] at hr
  simp [decode, hr]

/-! ## What the encoder accepts -/

theorem encodeItems_ok (h : ∀ v ∈ vs, ∃ b, encode v = .ok b) : ∃ b, encodeItems vs = .ok b := by
  induction vs with
  | nil => exact ⟨[], rfl⟩
  | cons v vs ih =>
    obtain ⟨b, hb⟩ := h v mem_cons_self
    obtain ⟨bs, hbs⟩ := ih fun w hw => h w (mem_cons_of_mem _ hw)
    exact ⟨b ++ bs, by rw [encodeItems, hb, hbs]; rfl⟩

theorem encode_array_ok (h : ∀ v ∈ vs, ∃ b, encode v = .ok b) :
    ∃ b, encode (.array vs) = .ok b := by
  obtain ⟨b, hb⟩ := encodeItems_ok h
  exact ⟨_, by rw [encode, hb]; rfl⟩

theorem encodePairs_ok (h : ∀ p ∈ ps, (∃ b, encode p.1 = .ok b) ∧ ∃ b, encode p.2 = .ok b) :
    ∃ bs, encodePairs ps = .ok bs ∧ bs.map Prod.fst = ps.map fun p => keyBytes p.1 := by
  induction ps with
  | nil => exact ⟨[], rfl, rfl⟩
  | cons p ps ih =>
    obtain ⟨⟨kb, hkb⟩, vb, hvb⟩ := h p mem_cons_self
    obtain ⟨bs, hbs, hk⟩ := ih fun w hw => h w (mem_cons_of_mem _ hw)
    refine ⟨(kb, vb) :: bs, ?_, by rw [map_cons, map_cons, hk, keyBytes_of_encode hkb]⟩
    rw [encodePairs, hkb, hvb, hbs]
    rfl

theorem hasDuplicateKey_sortPairs (h : (bs.map Prod.fst).Nodup) :
    hasDuplicateKey (sortPairs bs) = false := by
  have hs : (sortPairs bs).Pairwise fun a b => a.1 ≤ b.1 :=
    pairwise_insertionSort (fun a b : Bytes × Bytes => a.1 ≤ b.1) bs
  have hp : (sortPairs bs).Perm bs := perm_insertionSort _ bs
  have hn : (sortPairs bs).Pairwise fun a b => a.1 ≠ b.1 :=
    pairwise_map.mp ((hp.map Prod.fst).nodup_iff.mpr h)
  exact hasDuplicateKey_eq_false ((hs.and hn).imp fun h => lt_of_le_of_ne h.1 h.2)

theorem encode_map_ok (h : ∀ p ∈ ps, (∃ b, encode p.1 = .ok b) ∧ ∃ b, encode p.2 = .ok b)
    (hn : (ps.map fun p => keyBytes p.1).Nodup) : ∃ b, encode (.map ps) = .ok b := by
  obtain ⟨bs, hbs, hk⟩ := encodePairs_ok h
  have hd := hasDuplicateKey_sortPairs (hk ▸ hn)
  exact ⟨_, by simp only [encode, hbs, ok_bind, hd]; rfl⟩

theorem keyBytes_text_inj {s t : String} (hs : (strBytes s).length < 2 ^ 64)
    (ht : (strBytes t).length < 2 ^ 64) (e : keyBytes (.text s) = keyBytes (.text t)) : s = t := by
  have h₁ := readsAs_text hs 0 []
  have h₂ := readsAs_text ht 0 []
  rw [keyBytes_of_encode rfl, keyBytes_of_encode rfl] at e
  rw [e, h₂] at h₁
  exact (Value.text.inj (Prod.mk.inj (Except.ok.inj h₁)).1).symm

/-! ## Items and pairs one by one -/

theorem canonItems_eq_map (vs : List Value) : canonItems vs = vs.map canon := by
  induction vs with
  | nil => rfl
  | cons v vs ih => rw [canonItems, ih, map_cons]

theorem canonPairs_eq_map (ps : List (Value × Value)) :
    canonPairs ps = ps.map fun p => (canon p.1, canon p.2) := by
  induction ps with
  | nil => rfl
  | cons p ps ih => rw [canonPairs, ih, map_cons]

theorem sizedItems_iff : SizedItems vs ↔ ∀ v ∈ vs, Sized v := by
  induction vs with
  | nil => simp [SizedItems]
  | cons v vs ih => simp [SizedItems, ih]

theorem sizedPairs_iff : SizedPairs ps ↔ ∀ p ∈ ps, Sized p.1 ∧ Sized p.2 := by
  induction ps with
  | nil => simp [SizedPairs]
  | cons p ps ih => simp [SizedPairs, ih, and_assoc]

theorem depthItems_le (h : ∀ v ∈ vs, depth v + 1 ≤ n) : depthItems vs ≤ n := by
  induction vs with
  | nil => exact zero_le n
  | cons v vs ih =>
    exact max_le (h v mem_cons_self) (ih fun w hw => h w (mem_cons_of_mem _ hw))

theorem depthPairs_le (h : ∀ p ∈ ps, depth p.1 + 1 ≤ n ∧ depth p.2 + 1 ≤ n) : depthPairs ps ≤ n := by
  induction ps with
  | nil => exact zero_le n
  | cons p ps ih =>
    obtain ⟨hk, hv⟩ := h p mem_cons_self
    exact max_le (max_le hk hv) (ih fun w hw => h w (mem_cons_of_mem _ hw))

theorem depthPairs_perm {qs : List (Value × Value)} (h : ps.Perm qs) :
    depthPairs ps = depthPairs qs := by
  induction h with
  | nil => rfl
  | cons p _ ih => rw [depthPairs, depthPairs, ih]
  | swap p q ps => simp only [depthPairs]; omega
  | trans _ _ ih₁ ih₂ => rw [ih₁, ih₂]

mutual

theorem depth_canon : ∀ v : Value, depth (canon v) = depth v
  | .uint _ | .nint _ | .bytes _ | .text _ | .float _ | .bool _ | .null => rfl
  | .array items => depthItems_canon items
  | .map pairs => (depthPairs_perm (perm_insertionSort _ _)).trans (depthPairs_canon pairs)
termination_by structural v => v

theorem depthItems_canon : ∀ vs : List Value, depthItems (canonItems vs) = depthItems vs
  | [] => rfl
  | v :: vs => by rw [canonItems, depthItems, depthItems, depth_canon v, depthItems_canon vs]
termination_by structural vs => vs

theorem depthPairs_canon : ∀ ps : List (Value × Value), depthPairs (canonPairs ps) = depthPairs ps
  | [] => rfl
  | (k, v) :: ps => by
    rw [canonPairs, depthPairs, depthPairs, depth_canon k, depth_canon v, depthPairs_canon ps]
termination_by structural ps => ps

end

/-- What is nested deeper than the limit is never read back. -/
theorem decode_ne_ok (hs : Sized v) (hd : maxDepth < depth v) (h : encode v = .ok b) (w : Value) :
    decode b ≠ .ok w := by
  intro hw
  obtain ⟨he, hsw, hdw⟩ := encode_of_decode hw
  have hv := value_encode v hs (lt_succ_self _) h []
  have hw := value_encode w hsw (show depth w < depth v + 1 by omega) he []
  rw [hv] at hw
  have hc : canon v = canon w := (Prod.mk.inj (Except.ok.inj hw)).1
  have := depth_canon v
  rw [hc, depth_canon w] at this
  omega

/-- **The codec is canonical**: values nested at most `maxDepth` deep come back in canonical form,
and no value has two accepted byte forms. -/
theorem codec_canonical :
    (∀ v b, Sized v → depth v ≤ maxDepth → encode v = .ok b → decode b = .ok (canon v)) ∧
    (∀ b v, decode b = .ok v → encode v = .ok b) ∧
    (∀ b b' v, decode b = .ok v → decode b' = .ok v → b = b') := by
  refine ⟨fun v b hs hd h => decode_of_encode hs hd h, fun b v h => (encode_of_decode h).1,
    fun b b' v h h' => ?_⟩
  have he := (encode_of_decode h).1
  rw [(encode_of_decode h').1] at he
  exact (Except.ok.inj he).symm

theorem length_putHead_pos (m : UInt8) (n : ℕ) : 0 < (putHead m n).length := by
  unfold putHead
  dsimp only
  split_ifs <;> simp

theorem length_encode_pos {v : Value} {b : Bytes} (h : encode v = .ok b) : 0 < b.length := by
  have hhead : ∀ (m : UInt8) (n : ℕ) (r : Bytes), 0 < (putHead m n ++ r).length := by
    intro m n r
    rw [length_append]
    exact Nat.add_pos_left (length_putHead_pos m n) _
  cases v with
  | uint n | nint n =>
    rw [← Except.ok.inj h]
    exact length_putHead_pos _ _
  | bytes b' | text s =>
    rw [← Except.ok.inj h]
    exact hhead _ _ _
  | array items =>
    obtain ⟨body, -, h⟩ := of_bind h
    rw [← Except.ok.inj h]
    exact hhead _ _ _
  | map pairs =>
    obtain ⟨bs, -, h⟩ := of_bind h
    obtain ⟨-, h⟩ := ite_error_eq_ok.mp h
    rw [← Except.ok.inj h]
    exact hhead _ _ _
  | float bits =>
    rw [encode] at h
    split_ifs at h
    rw [← Except.ok.inj h]
    simp
  | bool | null =>
    rw [← Except.ok.inj h]
    simp

def pairsLength (bs : List (Bytes × Bytes)) : ℕ := (bs.map fun p => p.1.length + p.2.length).sum

theorem length_flatMap_sortPairs (bs : List (Bytes × Bytes)) :
    ((sortPairs bs).flatMap fun p => p.1 ++ p.2).length = pairsLength bs := by
  rw [length_flatMap]
  simp only [length_append]
  exact ((perm_insertionSort _ bs).map _).sum_eq

mutual

/-- **A value with a short encoding is sized.** -/
theorem sized_of_encode : ∀ (v : Value) {b : Bytes}, encode v = .ok b → b.length < 2 ^ 64 → Sized v
  | .uint _, _, _, _ | .nint _, _, _, _ | .float _, _, _, _ | .bool _, _, _, _ | .null, _, _, _ =>
    trivial
  | .bytes b', b, h, hb | .text s, b, h, hb => by
    rw [← Except.ok.inj h, length_append] at hb
    exact (le_add_left _ _).trans_lt hb
  | .array items, b, h, hb => by
    obtain ⟨body, hbody, h⟩ := of_bind h
    rw [← Except.ok.inj h, length_append] at hb
    obtain ⟨hl, hs⟩ := sizedItems_of_encode items hbody ((le_add_left _ _).trans_lt hb)
    exact ⟨by omega, hs⟩
  | .map pairs, b, h, hb => by
    obtain ⟨bs, hbs, h⟩ := of_bind h
    obtain ⟨-, h⟩ := ite_error_eq_ok.mp h
    rw [← Except.ok.inj h, length_append, length_flatMap_sortPairs] at hb
    obtain ⟨hl, hs⟩ := sizedPairs_of_encode pairs hbs ((le_add_left _ _).trans_lt hb)
    exact ⟨by omega, hs⟩
termination_by structural v => v

theorem sizedItems_of_encode : ∀ (vs : List Value) {b : Bytes}, encodeItems vs = .ok b →
    b.length < 2 ^ 64 → vs.length ≤ b.length ∧ SizedItems vs
  | [], _, _, _ => ⟨zero_le _, trivial⟩
  | v :: vs, b, h, hb => by
    obtain ⟨b1, h1, h⟩ := of_bind h
    obtain ⟨b2, h2, h⟩ := of_bind h
    have hpos := length_encode_pos h1
    rw [← Except.ok.inj h, length_append] at hb ⊢
    obtain ⟨hl, hs⟩ := sizedItems_of_encode vs h2 ((le_add_left _ _).trans_lt hb)
    refine ⟨?_, sized_of_encode v h1 ((le_add_right _ _).trans_lt hb), hs⟩
    rw [length_cons]
    omega
termination_by structural vs => vs

theorem sizedPairs_of_encode : ∀ (ps : List (Value × Value)) {bs : List (Bytes × Bytes)},
    encodePairs ps = .ok bs → pairsLength bs < 2 ^ 64 → ps.length ≤ pairsLength bs ∧ SizedPairs ps
  | [], _, _, _ => ⟨zero_le _, trivial⟩
  | (k, v) :: ps, bs, h, hb => by
    obtain ⟨kb, hk, h⟩ := of_bind h
    obtain ⟨vb, hv, h⟩ := of_bind h
    obtain ⟨cs, hcs, h⟩ := of_bind h
    have hpos := length_encode_pos hk
    cases h
    have hsum : pairsLength ((kb, vb) :: cs) = kb.length + vb.length + pairsLength cs := by
      simp [pairsLength]
    rw [hsum] at hb ⊢
    obtain ⟨hl, hs⟩ := sizedPairs_of_encode ps hcs ((le_add_left _ _).trans_lt hb)
    refine ⟨?_, sized_of_encode k hk (by omega), sized_of_encode v hv (by omega), hs⟩
    rw [length_cons]
    omega
termination_by structural ps => ps

end

/-- **Values with the same encoding have the same canonical form.** -/
theorem canon_eq_of_encode {v w : Value} {b : Bytes} (hv : encode v = .ok b) (hw : encode w = .ok b)
    (hsv : Sized v) (hsw : Sized w) : canon v = canon w := by
  have hrv := value_encode v hsv (show depth v < max (depth v) (depth w) + 1 by omega) hv []
  have hrw := value_encode w hsw (show depth w < max (depth v) (depth w) + 1 by omega) hw []
  rw [hrv] at hrw
  exact (Prod.mk.inj (Except.ok.inj hrw)).1

end UldrenLoom.Codec
