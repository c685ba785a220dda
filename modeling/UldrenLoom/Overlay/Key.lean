import UldrenLoom.Cbor
import UldrenLoom.Lib.SortedMap

/-!
# Keys of the mutable overlay

A key is a schema tag, the number six and six segments, each behind its length. Keys are ordered by
their bytes, so the keys that start with some segments lie next to each other.

* **`OverlayKey.segments_ok`**: every key has its six segments.
-/

namespace UldrenLoom.Overlay

open ByteString List Fallible

/-! ## Framing -/

def keySchema : Bytes := strBytes "loom.mutable-overlay.key.v1"

def overlayKeySegmentCount : ℕ := 6

def takeSegment (label : String) (bytes : Bytes) : Result (Bytes × Bytes) :=
  if bytes.length < 4 then .error (.corrupt (label ++ " segment length truncated"))
  else
    let len := beNat (bytes.take 4)
    let rest := bytes.drop 4
    if rest.length < len then .error (.corrupt (label ++ " segment truncated"))
    else .ok (rest.take len, rest.drop len)

/-- Count the segments up to the end of the bytes, of which there may be `limit`. -/
def countSegments (label : String) : ℕ → Bytes → Result ℕ
  | _, [] => .ok 0
  | 0, _ :: _ => .error (.corrupt (label ++ " has too many segments"))
  | limit + 1, b :: bytes => do
    let (_, rest) ← takeSegment label (b :: bytes)
    let parsed ← countSegments label limit rest
    pure (parsed + 1)

/-- What follows the schema tag and the segment count. -/
def framedBody (label : String) (bytes : Bytes) : Result Bytes :=
  if ¬ keySchema <+: bytes then .error (.corrupt ("unknown " ++ label ++ " schema"))
  else
    match bytes.drop keySchema.length with
    | [] => .error (.corrupt (label ++ " segment count missing"))
    | count :: rest =>
      if count.toNat ≠ overlayKeySegmentCount then
        .error (.corrupt (label ++ " segment count mismatch"))
      else .ok rest

def validateOverlayKeyCommonFraming (bytes : Bytes) (label : String) : Result ℕ := do
  let body ← framedBody label bytes
  countSegments label overlayKeySegmentCount body

def validateOverlayKeyFraming (bytes : Bytes) : Result Unit := do
  let parsed ← validateOverlayKeyCommonFraming bytes "overlay key"
  if parsed ≠ overlayKeySegmentCount then
    .error (.corrupt "overlay key segment count mismatch")
  else .ok ()

def validateOverlayKeyPrefixFraming (bytes : Bytes) : Result Unit := do
  let parsed ← validateOverlayKeyCommonFraming bytes "overlay key prefix"
  if parsed = 0 then .error (.corrupt "overlay key prefix has no segments") else .ok ()

/-- A key of the overlay. -/
structure OverlayKey where
  bytes : Bytes
  framed : validateOverlayKeyFraming bytes = .ok ()

/-- The first segments of keys of the overlay. -/
structure OverlayKeyPrefix where
  bytes : Bytes
  framed : validateOverlayKeyPrefixFraming bytes = .ok ()
deriving DecidableEq

theorem OverlayKey.bytes_injective : Function.Injective OverlayKey.bytes := by
  rintro ⟨a, ha⟩ ⟨b, hb⟩ rfl
  rfl

instance : LinearOrder OverlayKey := LinearOrder.lift' OverlayKey.bytes OverlayKey.bytes_injective

/-! ## Segments -/

def encodeSegments (segments : List Bytes) : Bytes :=
  segments.flatMap fun segment => beBytes 4 segment.length ++ segment

/-- The bytes of a key with some segments, or of a prefix. -/
def frame (segments : List Bytes) : Bytes :=
  keySchema ++ UInt8.ofNat overlayKeySegmentCount :: encodeSegments segments

def readSegments : ℕ → Bytes → Result (List Bytes × Bytes)
  | 0, bytes => .ok ([], bytes)
  | count + 1, bytes => do
    let (segment, rest) ← takeSegment "overlay key" bytes
    let (segments, rest) ← readSegments count rest
    pure (segment :: segments, rest)

def OverlayKey.segments (key : OverlayKey) : Result (List Bytes) := do
  let body ← framedBody "overlay key" key.bytes
  let (segments, rest) ← readSegments overlayKeySegmentCount body
  if rest ≠ [] then .error (.corrupt "overlay key has trailing bytes") else .ok segments

theorem readSegments_of_count {limit count : ℕ} {bytes : Bytes}
    (h : countSegments "overlay key" limit bytes = .ok count) :
    ∃ segments, readSegments count bytes = .ok (segments, []) ∧ segments.length = count := by
  induction limit generalizing bytes count with
  | zero =>
    cases bytes with
    | nil =>
      cases h
      exact ⟨[], rfl, rfl⟩
    | cons b bytes => cases h
  | succ limit ih =>
    cases bytes with
    | nil =>
      cases h
      exact ⟨[], rfl, rfl⟩
    | cons b bytes =>
      obtain ⟨⟨segment, rest⟩, htake, h⟩ := of_bind h
      obtain ⟨parsed, hparsed, h⟩ := of_bind h
      cases h
      obtain ⟨segments, hread, hlen⟩ := ih hparsed
      refine ⟨segment :: segments, ?_, congrArg (· + 1) hlen⟩
      rw [readSegments, htake, ok_bind]
      dsimp only
      rw [hread]
      rfl

/-- **Every key has its six segments.** -/
theorem OverlayKey.segments_ok (key : OverlayKey) :
    ∃ segments, key.segments = .ok segments ∧ segments.length = overlayKeySegmentCount := by
  obtain ⟨parsed, hparsed, hcount⟩ := of_bind key.framed
  obtain ⟨body, hbody, hparsed⟩ := of_bind hparsed
  have hsix : parsed = overlayKeySegmentCount :=
    not_not.mp (ite_error_eq_ok.mp hcount).1
  subst hsix
  obtain ⟨segments, hread, hlen⟩ := readSegments_of_count hparsed
  refine ⟨segments, ?_, hlen⟩
  rw [OverlayKey.segments, hbody, ok_bind, hread]
  rfl

/-! ## The range of a prefix -/

/-- Increment the first byte that has room; the bytes before it stay. -/
def bumpFirst : Bytes → Option Bytes
  | [] => none
  | b :: bytes => if b ≠ 255 then some ((b + 1) :: bytes) else (bumpFirst bytes).map (b :: ·)

/-- Increment the last byte that has room; the bytes after it stay. -/
def bytePrefixSuccessor (p : Bytes) : Option Bytes := (bumpFirst p.reverse).map List.reverse

/-- Whether a key lies in the range that is scanned for a prefix. -/
def inRange (p : OverlayKeyPrefix) (key : OverlayKey) : Bool :=
  decide (p.bytes ≤ key.bytes) && (bytePrefixSuccessor p.bytes).all fun last => key.bytes < last

/-- A key that the scan takes for one of the prefix: it has `b + 1` where the prefix has `b`, the last
byte below `0xFF`, and goes on below the `0xFF`s of the prefix. -/
def Stray (p key : Bytes) : Prop :=
  ∃ q b n r, p = q ++ b :: replicate n 255 ∧ b ≠ 255 ∧ key = q ++ (b + 1) :: r ∧ r < replicate n 255

theorem bytePrefixSuccessor_concat (p : Bytes) (b : UInt8) : bytePrefixSuccessor (p ++ [b]) =
      if b ≠ 255 then some (p ++ [b + 1]) else (bytePrefixSuccessor p).map (· ++ [b]) := by
  unfold bytePrefixSuccessor
  rw [reverse_append, reverse_singleton, singleton_append, bumpFirst]
  by_cases h : b ≠ 255
  · rw [if_pos h, if_pos h, Option.map_some, reverse_cons, reverse_reverse]
  · rw [if_neg h, if_neg h, Option.map_map, Option.map_map]
    congr 1
    funext l
    exact reverse_cons

theorem successor_replicate (n : ℕ) : bytePrefixSuccessor (replicate n 255) = none := by
  induction n with
  | zero => rfl
  | succ n ih => rw [replicate_succ', bytePrefixSuccessor_concat, ih]; rfl

theorem successor_room (q : Bytes) {b : UInt8} (hb : b ≠ 255) (n : ℕ) :
    bytePrefixSuccessor (q ++ b :: replicate n 255) = some (q ++ (b + 1) :: replicate n 255) := by
  induction n with
  | zero => exact (bytePrefixSuccessor_concat q b).trans (if_pos hb)
  | succ n ih =>
    have hassoc : ∀ c : UInt8, q ++ c :: replicate (n + 1) 255 = (q ++ c :: replicate n 255) ++ [255] :=
      fun c => by rw [replicate_succ', append_assoc, cons_append]
    rw [hassoc, hassoc, bytePrefixSuccessor_concat, ih]
    rfl

/-- A byte string is `0xFF`s, behind a byte with room if it has one. -/
theorem room_cases (p : Bytes) :
    (∃ n, p = replicate n 255) ∨ ∃ q b n, p = q ++ b :: replicate n 255 ∧ b ≠ 255 := by
  induction p using List.reverseRecOn with
  | nil => exact .inl ⟨0, rfl⟩
  | append_singleton p b ih =>
    by_cases hb : b = 255
    · subst hb
      obtain ⟨n, rfl⟩ | ⟨q, c, n, rfl, hc⟩ := ih
      · exact .inl ⟨n + 1, replicate_succ'.symm⟩
      · exact .inr ⟨q, c, n + 1, by rw [append_assoc, cons_append, ← replicate_succ'], hc⟩
    · exact .inr ⟨p, b, 0, rfl, hb⟩

theorem prefix_of_replicate_le {n : ℕ} {key : Bytes} (h : replicate n 255 ≤ key) :
    replicate n 255 <+: key := by
  induction n generalizing key with
  | zero => exact nil_prefix
  | succ n ih =>
    cases key with
    | nil => exact absurd h (not_le.mpr (nil_lt_cons _ _))
    | cons c r =>
      have hc : ¬ (255 : UInt8) < c := by grind
      rw [replicate_succ, ← not_lt, cons_lt_cons_iff, not_or, not_and] at h
      have hc' : c = 255 := le_antisymm (not_lt.mp hc) (not_lt.mp h.1)
      subst hc'
      rw [replicate_succ]
      exact cons_prefix_cons.mpr ⟨rfl, ih (not_lt.mp (h.2 rfl))⟩

theorem between_append {q u v key : Bytes} (hlow : q ++ u ≤ key) (hhigh : key < q ++ v) :
    ∃ t, key = q ++ t ∧ u ≤ t ∧ t < v := by
  induction q generalizing key with
  | nil => exact ⟨key, rfl, hlow, hhigh⟩
  | cons a q ih =>
    cases key with
    | nil => exact absurd hlow (not_le.mpr (nil_lt_cons _ _))
    | cons c key =>
      rw [cons_append, ← not_lt, cons_lt_cons_iff, not_or, not_and] at hlow
      rw [cons_append, cons_lt_cons_iff] at hhigh
      obtain hca | ⟨rfl, hhigh⟩ := hhigh
      · exact absurd hca hlow.1
      · obtain ⟨t, rfl, ht⟩ := ih (not_lt.mp (hlow.2 rfl)) hhigh
        exact ⟨t, rfl, ht⟩

theorem lt_add_one_iff {b c : UInt8} (hb : b ≠ 255) : c < b + 1 ↔ c ≤ b := by
  have hne : b.toNat ≠ 255 := fun e => hb (UInt8.toNat_inj.mp e)
  have hlt := b.toNat_lt
  have hadd : (b + 1).toNat = b.toNat + 1 := by
    change (b.toNat + 1) % 256 = _
    omega
  rw [UInt8.lt_iff_toNat_lt, UInt8.le_iff_toNat_le, hadd]
  omega

/-- **The range of a prefix**: the keys that start with it, and the strays. -/
theorem inRange_iff {p : OverlayKeyPrefix} {key : OverlayKey} :
    inRange p key ↔ p.bytes <+: key.bytes ∨ Stray p.bytes key.bytes := by
  rw [inRange, Bool.and_eq_true, decide_eq_true_eq]
  constructor
  · rintro ⟨hlow, hhigh⟩
    obtain ⟨n, hp⟩ | ⟨q, b, n, hp, hb⟩ := room_cases p.bytes
    · exact .inl (hp ▸ prefix_of_replicate_le (hp ▸ hlow))
    · rw [hp, successor_room q hb, Option.all_some, decide_eq_true_eq] at hhigh
      rw [hp] at hlow
      obtain ⟨_ | ⟨c, r⟩, ht, hlow, hhigh⟩ := between_append hlow hhigh
      · exact absurd hlow (not_le.mpr (nil_lt_cons _ _))
      rw [← not_lt, cons_lt_cons_iff, not_or, not_and] at hlow
      rw [cons_lt_cons_iff, lt_add_one_iff hb] at hhigh
      obtain hc | ⟨rfl, hr⟩ := hhigh
      · obtain rfl := le_antisymm hc (not_lt.mp hlow.1)
        rw [hp, ht]
        exact .inl ((prefix_append_right_inj q).mpr
          (cons_prefix_cons.mpr ⟨rfl, prefix_of_replicate_le (not_lt.mp (hlow.2 rfl))⟩))
      · exact .inr ⟨q, b, n, r, hp, hb, ht, hr⟩
  · rintro (⟨r, hr⟩ | ⟨q, b, n, r, hp, hb, hkey, hr⟩)
    · rw [← hr]
      refine ⟨not_lt.mp le_append_left, ?_⟩
      obtain ⟨n, hp⟩ | ⟨q, b, n, hp, hb⟩ := room_cases p.bytes
      · rw [hp, successor_replicate]
        rfl
      · rw [hp, successor_room q hb, Option.all_some, decide_eq_true_eq, append_assoc]
        exact append_left_lt (cons_lt_cons_iff.mpr (.inl ((lt_add_one_iff hb).mpr le_rfl)))
    · rw [hp, hkey, successor_room q hb, Option.all_some, decide_eq_true_eq]
      refine ⟨(append_left_lt (cons_lt_cons_iff.mpr (.inl ?_))).le,
        append_left_lt (cons_lt_cons_iff.mpr (.inr ⟨rfl, hr⟩))⟩
      exact (lt_add_one_iff hb).mpr le_rfl

/-- A stray does not start with the prefix. -/
theorem Stray.not_prefix {p key : Bytes} (h : Stray p key) : ¬ p <+: key := by
  obtain ⟨q, b, n, r, rfl, hb, rfl, -⟩ := h
  rw [prefix_append_right_inj, cons_prefix_cons, not_and]
  exact fun he => absurd he ((lt_add_one_iff hb).mpr le_rfl).ne

/-! ## Owner scopes -/

/-- The owner of some keys: the scope kind, the scope and the domain. -/
structure OverlayOwnerScope where
  scopeKind : Bytes
  scopeId : Bytes
  domain : Bytes
  nonempty : scopeKind ≠ [] ∧ scopeId ≠ [] ∧ domain ≠ []
deriving DecidableEq

def OverlayOwnerScope.matchesKey (scope : OverlayOwnerScope) (key : OverlayKey) : Result Bool := do
  let segments ← key.segments
  match segments with
  | [kind, id, domain, _, _, _] =>
    .ok (kind = scope.scopeKind && id = scope.scopeId && domain = scope.domain)
  | _ => .error (.corrupt "overlay key owner scope shape mismatch")

def matchingOwnerScope : List OverlayOwnerScope → OverlayKey →
    Result (Option OverlayOwnerScope)
  | [], _ => .ok none
  | scope :: scopes, key => do
    if ← scope.matchesKey key then pure (some scope) else matchingOwnerScope scopes key

theorem OverlayOwnerScope.matchesKey_ok (scope : OverlayOwnerScope) (key : OverlayKey) :
    ∃ b, scope.matchesKey key = .ok b := by
  obtain ⟨segments, hsegments, hlen⟩ := key.segments_ok
  unfold matchesKey
  rw [hsegments, ok_bind]
  match segments, hlen with
  | [_, _, _, _, _, _], _ => exact ⟨_, rfl⟩

theorem matchingOwnerScope_ok (scopes : List OverlayOwnerScope) (key : OverlayKey) :
    ∃ scope, matchingOwnerScope scopes key = .ok scope := by
  induction scopes with
  | nil => exact ⟨none, rfl⟩
  | cons scope scopes ih =>
    obtain ⟨b, hb⟩ := scope.matchesKey_ok key
    rw [matchingOwnerScope, hb, ok_bind]
    cases b with
    | true => exact ⟨some scope, rfl⟩
    | false => exact ih

end UldrenLoom.Overlay
