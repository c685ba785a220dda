import UldrenLoom.Lib.Wire

/-!
# The strings a reader takes

`Wire.Reads` says that a reader reads back what was written. Here a reader is described by all the
strings it takes, written by the program or not.
-/

namespace Wire

open ByteString Fallible List

variable {ε α β : Type}

/-- The reader takes exactly the strings of `G`, and returns what `G` relates them to. -/
def Takes (p : Reader ε α) (G : Bytes → α → Prop) : Prop :=
  ∀ buf a rest, p buf = .ok (a, rest) ↔ ∃ bs, buf = bs ++ rest ∧ G bs a

variable {p : Reader ε α} {G : Bytes → α → Prop}

theorem Takes.congr {H : Bytes → α → Prop} (h : Takes p G) (hGH : ∀ bs a, G bs a ↔ H bs a) :
    Takes p H := fun buf a rest => by
  rw [h]
  exact exists_congr fun bs => and_congr_right fun _ => hGH bs a

theorem takes_pure (a : α) : Takes (pure a : Reader ε α) fun bs b => bs = [] ∧ b = a := by
  intro buf b rest
  constructor
  · intro h
    cases h
    exact ⟨[], rfl, rfl, rfl⟩
  · rintro ⟨_, rfl, rfl, rfl⟩
    rfl

/-- **Readers in turn take strings in turn.** -/
theorem Takes.bind {f : α → Reader ε β} {H : α → Bytes → β → Prop} (hp : Takes p G)
    (hf : ∀ a, Takes (f a) (H a)) :
    Takes (p >>= f) fun cs b => ∃ a as bs, cs = as ++ bs ∧ G as a ∧ H a bs b := by
  intro buf b rest
  change (p buf >>= fun r => f r.1 r.2) = _ ↔ _
  rw [bind_eq_ok]
  constructor
  · rintro ⟨⟨a, rest'⟩, ha, hb⟩
    obtain ⟨as, rfl, hG⟩ := (hp _ _ _).mp ha
    obtain ⟨bs, rfl, hH⟩ := (hf a _ _ _).mp hb
    exact ⟨as ++ bs, (append_assoc ..).symm, a, as, bs, rfl, hG, hH⟩
  · rintro ⟨_, rfl, a, as, bs, rfl, hG, hH⟩
    refine ⟨(a, bs ++ rest), (hp _ _ _).mpr ⟨as, append_assoc .., hG⟩, ?_⟩
    exact (hf a _ _ _).mpr ⟨bs, rfl, hH⟩

/-- A step that reads nothing. -/
theorem takes_lift (x : Except ε α) :
    Takes (liftM x : Reader ε α) fun bs a => bs = [] ∧ x = .ok a := by
  intro buf a rest
  change (x >>= fun a => Except.ok (a, buf)) = _ ↔ _
  rw [bind_eq_ok]
  constructor
  · rintro ⟨a', hx, h⟩
    cases h
    exact ⟨[], rfl, rfl, hx⟩
  · rintro ⟨_, rfl, rfl, hx⟩
    exact ⟨a, hx, rfl⟩

theorem takes_take (short : ε) (n : ℕ) :
    Takes (take short n) fun bs a => bs.length = n ∧ a = bs := by
  intro buf a rest
  unfold take
  constructor
  · intro h
    split_ifs at h with hn
    cases h
    exact ⟨buf.take n, (take_append_drop n buf).symm, by simpa using hn, rfl⟩
  · rintro ⟨bs, rfl, rfl, rfl⟩
    simp

/-- **Runs of a reader.** -/
theorem takes_times (hp : Takes p G) (n : ℕ) :
    Takes (times p n) fun bs as => ∃ bss : List Bytes, bss.length = n ∧ bs = bss.flatten ∧
      List.Forall₂ G bss as := by
  induction n with
  | zero =>
    refine (takes_pure []).congr fun bs as => ⟨?_, ?_⟩
    · rintro ⟨rfl, rfl⟩
      exact ⟨[], rfl, rfl, .nil⟩
    · rintro ⟨bss, hl, rfl, h⟩
      obtain rfl := length_eq_zero_iff.mp hl
      exact ⟨rfl, forall₂_nil_left_iff.mp h⟩
  | succ n ih =>
    refine (hp.bind fun a => ih.bind fun as => takes_pure (a :: as)).congr fun bs as => ⟨?_, ?_⟩
    · rintro ⟨a, as₁, _, rfl, hG, as', bs', _, rfl, ⟨bss, hl, rfl, h⟩, rfl, rfl⟩
      exact ⟨as₁ :: bss, by simp [hl], by simp, .cons hG h⟩
    · rintro ⟨bss, hl, rfl, h⟩
      cases h with
      | nil => simp at hl
      | @cons b a bss as hG h =>
        refine ⟨a, b, bss.flatten, rfl, hG, as, bss.flatten, [], by simp, ⟨bss, by simpa using hl,
          rfl, h⟩, rfl, rfl⟩

/-- The reader takes exactly the strings of a set. -/
def Accepts (p : Reader ε α) (S : Bytes → Prop) : Prop :=
  ∃ G : Bytes → α → Prop, Takes p G ∧ ∀ bs, (∃ a, G bs a) ↔ S bs

theorem exists_forall₂ {γ δ : Type} {R : γ → δ → Prop} {xs : List γ} :
    (∃ ys, List.Forall₂ R xs ys) ↔ ∀ x ∈ xs, ∃ y, R x y := by
  induction xs with
  | nil => simp
  | cons x xs ih =>
    simp only [forall₂_cons_left_iff, forall_mem_cons, ← ih]
    constructor
    · rintro ⟨_, y, ys, hy, hys, rfl⟩
      exact ⟨⟨y, hy⟩, ys, hys⟩
    · rintro ⟨⟨y, hy⟩, ys, hys⟩
      exact ⟨_, y, ys, hy, hys, rfl⟩

theorem Accepts.times {p : Reader ε α} {S : Bytes → Prop} (hp : Accepts p S) (n : ℕ) :
    Accepts (times p n) fun bs => ∃ bss : List Bytes, bss.length = n ∧ bs = bss.flatten ∧
      ∀ bs ∈ bss, S bs := by
  obtain ⟨G, hG, hS⟩ := hp
  refine ⟨_, takes_times hG n, fun bs => ?_⟩
  rw [exists_comm]
  refine exists_congr fun bss => ?_
  simp only [exists_and_left, exists_forall₂, hS]

theorem Accepts.then {q : α → Reader ε β} {S T : Bytes → Prop} (hp : Accepts p S)
    (hq : ∀ a, Accepts (q a) T) (buf : Bytes) :
    (∃ a rest b rest', p buf = .ok (a, rest) ∧ q a rest = .ok (b, rest')) ↔
      ∃ as bs rest, buf = as ++ bs ++ rest ∧ S as ∧ T bs := by
  obtain ⟨G, hG, hS⟩ := hp
  constructor
  · rintro ⟨a, rest, b, rest', ha, hb⟩
    obtain ⟨H, hH, hT⟩ := hq a
    obtain ⟨as, rfl, has⟩ := (hG _ _ _).mp ha
    obtain ⟨bs, rfl, hbs⟩ := (hH _ _ _).mp hb
    exact ⟨as, bs, rest', (append_assoc ..).symm, (hS as).mp ⟨a, has⟩, (hT bs).mp ⟨b, hbs⟩⟩
  · rintro ⟨as, bs, rest, rfl, has, hbs⟩
    obtain ⟨a, ha⟩ := (hS as).mpr has
    obtain ⟨H, hH, hT⟩ := hq a
    obtain ⟨b, hb⟩ := (hT bs).mpr hbs
    exact ⟨a, bs ++ rest, b, rest, (hG _ _ _).mpr ⟨as, append_assoc .., ha⟩,
      (hH _ _ _).mpr ⟨bs, rfl, hb⟩⟩

/-! ## Fields of one width -/

/-- A string is made of `n` fields of width `w` if it has their length. -/
theorem exists_fields_iff {w n : ℕ} {bs : Bytes} :
    (∃ bss : List Bytes, bss.length = n ∧ bs = bss.flatten ∧ ∀ b ∈ bss, b.length = w) ↔
      bs.length = w * n := by
  induction n generalizing bs with
  | zero =>
    simp only [length_eq_zero_iff, Nat.mul_zero]
    exact ⟨fun ⟨_, h, hbs, _⟩ => by rw [hbs, h]; rfl, fun h => ⟨[], rfl, h, by simp⟩⟩
  | succ n ih =>
    constructor
    · rintro ⟨bss, hl, rfl, h⟩
      cases bss with
      | nil => simp at hl
      | cons b bss =>
        have hrest := ih.mp ⟨bss, by simpa using hl, rfl, fun b hb => h b (by simp [hb])⟩
        rw [flatten_cons, length_append, hrest, h b (by simp)]
        ring
    · intro hlen
      have hle : w ≤ bs.length := by rw [hlen, Nat.mul_succ]; omega
      have hdrop : (bs.drop w).length = w * n := by
        rw [length_drop, hlen, Nat.mul_succ, Nat.add_sub_cancel]
      obtain ⟨bss, hl, hbs, h⟩ := ih.mpr hdrop
      refine ⟨bs.take w :: bss, by simp [hl], ?_, ?_⟩
      · rw [flatten_cons, ← hbs, take_append_drop]
      · rw [forall_mem_cons]
        exact ⟨by rw [length_take, min_eq_left hle], h⟩

theorem beBytes_succ_last (w n : ℕ) :
    beBytes (w + 1) n = beBytes w (n / 256) ++ [UInt8.ofNat n] := by
  induction w with
  | zero => simp [beBytes]
  | succ w ih =>
    rw [beBytes, ih, beBytes, Nat.div_div_eq_div_mul, pow_succ', cons_append]

theorem leBytes_succ (w n : ℕ) : leBytes (w + 1) n = UInt8.ofNat n :: leBytes w (n / 256) := by
  rw [leBytes, beBytes_succ_last, reverse_append, reverse_singleton, leBytes]
  rfl

/-! ## Numbers -/

/-- Up to `n` groups, the last one and only it not marked. -/
def IsGroups : ℕ → Bytes → Prop
  | 0, _ => False
  | _, [] => False
  | n + 1, b :: bs => if b.toNat < 128 then bs = [] else IsGroups n bs

/-- The value of groups, the first one at place `shift`. -/
def groupsValue : ℕ → Bytes → ℕ
  | _, [] => 0
  | shift, b :: bs => b.toNat % 128 * 2 ^ shift + groupsValue (shift + 7) bs

/-- The strings of a 64-bit number. -/
def IsUvarint (bs : Bytes) : Prop := IsGroups 10 bs

def uvarintValue (bs : Bytes) : UInt64 := UInt64.ofNat (groupsValue 0 bs)

theorem takes_groups (eof tooLong : ε) (n shift acc : ℕ) : Takes (groups eof tooLong n shift acc)
      fun bs a => IsGroups n bs ∧ a = acc + groupsValue shift bs := by
  induction n generalizing shift acc with
  | zero =>
    intro buf a rest
    simp [groups, IsGroups]
  | succ n ih =>
    intro buf a rest
    rw [groups]
    cases buf with
    | nil =>
      simp only [reduceCtorEq, false_iff, not_exists, not_and]
      intro bs hbs
      obtain ⟨rfl, -⟩ := append_eq_nil_iff.mp hbs.symm
      simp [IsGroups]
    | cons b buf =>
      dsimp only
      split_ifs with hb
      · constructor
        · intro h
          cases h
          exact ⟨[b], rfl, by simp [IsGroups, hb], by simp [groupsValue]⟩
        · rintro ⟨bs, hbs, hg, rfl⟩
          cases bs with
          | nil => exact hg.elim
          | cons b' bs =>
            cases hbs
            rw [IsGroups, if_pos hb] at hg
            subst hg
            simp [groupsValue]
      · rw [ih]
        constructor
        · rintro ⟨bs, rfl, hg, rfl⟩
          refine ⟨b :: bs, rfl, by rwa [IsGroups, if_neg hb], ?_⟩
          rw [groupsValue, Nat.add_assoc]
        · rintro ⟨bs, hbs, hg, rfl⟩
          cases bs with
          | nil => exact hg.elim
          | cons b' bs =>
            cases hbs
            rw [IsGroups, if_neg hb] at hg
            exact ⟨bs, rfl, hg, by rw [groupsValue, Nat.add_assoc]⟩

/-- **The strings that read as a number.** -/
theorem takes_uvarint (eof tooLong : ε) :
    Takes (uvarint eof tooLong) fun bs v => IsUvarint bs ∧ v = uvarintValue bs := by
  refine ((takes_groups eof tooLong 10 0 0).bind fun n => takes_pure (UInt64.ofNat n)).congr
    fun bs v => ⟨?_, ?_⟩
  · rintro ⟨n, as, _, rfl, ⟨hg, rfl⟩, rfl, rfl⟩
    rw [append_nil]
    exact ⟨hg, by rw [uvarintValue, Nat.zero_add]⟩
  · rintro ⟨hg, rfl⟩
    exact ⟨_, bs, [], by simp, ⟨hg, rfl⟩, rfl, by rw [uvarintValue, Nat.zero_add]⟩

end Wire
