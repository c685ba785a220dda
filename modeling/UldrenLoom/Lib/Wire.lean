import UldrenLoom.Lib.ByteString
import UldrenLoom.Lib.Fallible

/-!
# Byte streams of fields

Fields written one after the other, and readers that take them off the front of a buffer.
-/

namespace Wire

open ByteString List

variable {ε α β : Type}

/-- A reader takes bytes off the front of a buffer. -/
abbrev Reader (ε α : Type) : Type := StateT Bytes (Except ε) α

/-- From any buffer that starts with `bytes` the reader takes just these. -/
def Reads (p : Reader ε α) (bytes : Bytes) (a : α) : Prop := ∀ rest, p (bytes ++ rest) = .ok (a, rest)

theorem reads_pure (a : α) : Reads (pure a : Reader ε α) [] a := fun _ => rfl

variable {p : Reader ε α} {bs : Bytes} {a : α}

/-- **Readers in turn read fields in turn.** -/
theorem Reads.bind {f : α → Reader ε β} {as : Bytes} {b : β} (hp : Reads p as a)
    (hf : Reads (f a) bs b) : Reads (p >>= f) (as ++ bs) b := by
  intro rest
  rw [append_assoc]
  change (p (as ++ (bs ++ rest)) >>= fun r => f r.1 r.2) = _
  rw [hp]
  exact hf rest

theorem Reads.bind_pure {f : α → β} {as : Bytes} (hp : Reads p as a) :
    Reads (p >>= fun a => pure (f a)) as (f a) := by
  have h : Reads (p >>= fun a => (pure (f a) : Reader ε β)) (as ++ []) (f a) := hp.bind (reads_pure _)
  rwa [append_nil] at h

/-! ## Bytes -/

def take (short : ε) (n : ℕ) : Reader ε Bytes := fun buf =>
  if n ≤ buf.length then .ok (buf.take n, buf.drop n) else .error short

theorem reads_take (short : ε) (bs : Bytes) : Reads (take short bs.length) bs bs := by
  intro rest
  rw [take, if_pos (by simp), take_left, drop_left]

def takeExact (short : ε) (n : ℕ) : Reader ε {bs : Bytes // bs.length = n} := fun buf =>
  if h : n ≤ buf.length then .ok (⟨buf.take n, by simp [h]⟩, buf.drop n) else .error short

theorem reads_takeExact (short : ε) {n : ℕ} (h : bs.length = n) :
    Reads (takeExact short n) bs ⟨bs, h⟩ := by
  intro rest
  rw [takeExact, dif_pos (by simp [h])]
  simp [take_left' h, drop_left' h]

def span (p : Reader ε α) : Reader ε Bytes := fun buf => do
  let (_, rest) ← p buf
  .ok (buf.take (buf.length - rest.length), rest)

theorem reads_span (h : Reads p bs a) : Reads (span p) bs bs := by
  intro rest
  rw [span, h rest]
  simp [bind, Except.bind]

/-- **Fields are cut where they were joined.** -/
theorem reads_spans {ps : List (Reader ε α)} {bss : List Bytes}
    (h : List.Forall₂ (fun p bs => ∃ a, Reads p bs a) ps bss) :
    Reads (ps.mapM span) bss.flatten bss := by
  induction h with
  | nil => exact reads_pure []
  | cons hp _ ih =>
    obtain ⟨a, ha⟩ := hp
    rw [mapM_cons, flatten_cons]
    exact (reads_span ha).bind ih.bind_pure

theorem Reads.discard {p : Reader ε α} {bs : Bytes} {a : α} (h : Reads p bs a) :
    Reads (Functor.discard p) bs () := by
  intro rest
  change (p (bs ++ rest) >>= fun r => Except.ok (PUnit.unit, r.2)) = _
  rw [h rest]
  rfl

def times (p : Reader ε α) : ℕ → Reader ε (List α)
  | 0 => pure []
  | n + 1 => do
    let a ← p
    let as ← times p n
    pure (a :: as)

theorem reads_times {p : Reader ε β} {f : α → Bytes} {g : α → β} {l : List α}
    (h : ∀ a ∈ l, Reads p (f a) (g a)) : Reads (times p l.length) (l.flatMap f) (l.map g) := by
  induction l with
  | nil => exact reads_pure []
  | cons a l ih =>
    exact (h a (by simp)).bind (ih fun b hb => h b (by simp [hb])).bind_pure

/-! ## Numbers -/

def putGroups : (fuel n : ℕ) → Bytes
  | 0, _ => []
  | fuel + 1, n =>
    if n < 128 then [UInt8.ofNat n] else UInt8.ofNat (n % 128 + 128) :: putGroups fuel (n / 128)

/-- Read groups onto `acc`, the next one at place `shift`. -/
def groups (eof tooLong : ε) : (fuel shift acc : ℕ) → Reader ε ℕ
  | 0, _, _ => fun _ => .error tooLong
  | fuel + 1, shift, acc => fun buf =>
    match buf with
    | [] => .error eof
    | b :: rest =>
      let acc := acc + b.toNat % 128 * 2 ^ shift
      if b.toNat < 128 then .ok (acc, rest) else groups eof tooLong fuel (shift + 7) acc rest

theorem reads_groups (eof tooLong : ε) (fuel : ℕ) {n : ℕ} (h : n < 128 ^ (fuel + 1)) (shift acc : ℕ) :
    Reads (groups eof tooLong (fuel + 1) shift acc) (putGroups (fuel + 1) n)
      (acc + n * 2 ^ shift) := by
  induction fuel generalizing n shift acc with
  | zero =>
    intro rest
    have hn : n < 128 := by simpa using h
    have ht : (UInt8.ofNat n).toNat = n := UInt8.toNat_ofNat_of_lt' (hn.trans (by decide))
    simp [putGroups, groups, hn, ht, Nat.mod_eq_of_lt hn]
  | succ fuel ih =>
    intro rest
    rw [putGroups, groups]
    split_ifs with hn
    · have ht : (UInt8.ofNat n).toNat = n := UInt8.toNat_ofNat_of_lt' (hn.trans (by decide))
      simp [hn, ht, Nat.mod_eq_of_lt hn]
    · have ht : (UInt8.ofNat (n % 128 + 128)).toNat = n % 128 + 128 :=
        UInt8.toNat_ofNat_of_lt' (show _ < 256 by omega)
      have hdiv : n / 128 < 128 ^ (fuel + 1) := by
        rw [Nat.div_lt_iff_lt_mul (by norm_num), ← pow_succ]
        exact h
      have hsum : acc + n % 128 * 2 ^ shift + n / 128 * 2 ^ (shift + 7) = acc + n * 2 ^ shift := by
        conv_rhs => rw [← Nat.mod_add_div n 128]
        ring
      rw [cons_append]
      simp only [ht, Nat.add_mod_right, Nat.mod_mod, show ¬ n % 128 + 128 < 128 by omega, if_false]
      rw [ih hdiv (shift + 7) _ rest, hsum]

def putUvarint (v : UInt64) : Bytes := putGroups 10 v.toNat

/-- Read a 64-bit number; bits beyond the width are dropped. -/
def uvarint (eof tooLong : ε) : Reader ε UInt64 := do
  return UInt64.ofNat (← groups eof tooLong 10 0 0)

/-- **A number is read back.** -/
theorem reads_uvarint (eof tooLong : ε) (v : UInt64) :
    Reads (uvarint eof tooLong) (putUvarint v) v := by
  have hlt : v.toNat < 128 ^ 10 := v.toNat_lt.trans (by norm_num)
  have h : Reads (uvarint eof tooLong) (putUvarint v) (UInt64.ofNat (0 + v.toNat * 2 ^ 0)) :=
    (reads_groups eof tooLong 9 hlt 0 0).bind_pure
  simpa using h

/-! ## Lists -/

def putList (f : α → Bytes) (l : List α) : Bytes :=
  putUvarint (UInt64.ofNat l.length) ++ l.flatMap f

def list (eof tooLong : ε) (p : Reader ε α) : Reader ε (List α) := do
  let n ← uvarint eof tooLong
  times p n.toNat

/-- **A list is read back field by field**, if its length fits the count. -/
theorem reads_list (eof tooLong : ε) {p : Reader ε β} {f : α → Bytes} {g : α → β} {l : List α}
    (hl : l.length < 2 ^ 64) (h : ∀ a ∈ l, Reads p (f a) (g a)) :
    Reads (list eof tooLong p) (putList f l) (l.map g) := by
  refine (reads_uvarint eof tooLong _).bind ?_
  rw [UInt64.toNat_ofNat_of_lt' hl]
  exact reads_times h

end Wire
