import UldrenLoom.Prolly.Represent

/-!
# Cursors and prefix scans

A cursor walks the leaves of a tree from left to right and reads nodes when it gets to them. A prefix
scan collects the same entries by recursion, skipping the children outside the range.

* **`range_spec`**: the cursor and the scan give the entries in their range.
-/

namespace UldrenLoom.Prolly

open ByteString Fallible LevelTree Chunk OrdMap List

variable {D : Type} (read : D → Result (Node D))

/-! ## The cursor -/

/-- The children still to visit on the path, the entries left in the leaf, and the bounds. -/
structure Cursor (D : Type) where
  stack : List (ChildRun D)
  leaf : List (Bytes × Bytes)
  start : Option Bytes
  upper : Option Bytes

def before (start : Option Bytes) (key : Bytes) : Bool := start.any (key < ·)

def past (upper : Option Bytes) (key : Bytes) : Bool := upper.any (· ≤ key)

theorem before_of_le {start : Option Bytes} {a b : Bytes} (h : a ≤ b) (hb : before start b) :
    before start a := by
  cases start with
  | none => cases hb
  | some s => exact decide_eq_true (lt_of_le_of_lt h (of_decide_eq_true hb))

theorem past_of_le {upper : Option Bytes} {a b : Bytes} (h : a ≤ b) (ha : past upper a) :
    past upper b := by
  cases upper with
  | none => cases ha
  | some u => exact decide_eq_true (le_trans (of_decide_eq_true ha) h)

/-- Descend to the first leaf at or after the start. -/
def descendFrom : (left : ℕ) → D → Cursor D → Result (Cursor D)
  | 0, _, _ => .error (.corrupt "prolly cursor walked too deep")
  | left + 1, d, cur => do
    match ← read d with
    | .leaf es => .ok { cur with leaf := es.dropWhile fun e => before cur.start e.1 }
    | .internal ch =>
      match ch.dropWhile fun c => before cur.start c.1 with
      | [] => .ok { cur with leaf := [] }
      | c :: rest => descendFrom left c.2 { cur with stack := rest :: cur.stack }

def openRange (root : D) (start upper : Option Bytes) : Result (Cursor D) :=
  descendFrom read (maxDepth * maxDepth) root ⟨[], [], start, upper⟩

def nextChild : List (ChildRun D) → Option (D × List (ChildRun D))
  | [] => none
  | [] :: stack => nextChild stack
  | (c :: rest) :: stack => some (c.2, rest :: stack)

/-- One turn of the loop of `next`: the end, or the cursor after an entry or a move to a leaf. -/
def turn (cur : Cursor D) : Result (Option (Option (Bytes × Bytes) × Cursor D)) :=
  match cur.leaf with
  | e :: leaf => .ok (if past cur.upper e.1 then none else some (some e, { cur with leaf := leaf }))
  | [] =>
    match nextChild cur.stack with
    | none => .ok none
    | some (child, stack) => do
      let cur ← descendFrom read (maxDepth * maxDepth) child { cur with start := none, stack := stack }
      .ok (some (none, cur))

def drain : (fuel : ℕ) → Cursor D → Option (Result (List (Bytes × Bytes)))
  | 0, _ => none
  | fuel + 1, cur =>
    match turn read cur with
    | .error e => some (.error e)
    | .ok none => some (.ok [])
    | .ok (some (e, cur)) => (drain fuel cur).map (·.map (e.toList ++ ·))

/-! ## The scan -/

/-- The smallest string above all that start with a reversed prefix, reversed. -/
def successor : Bytes → Option Bytes
  | [] => none
  | b :: bs => if b < 0xFF then some ((b + 1) :: bs) else successor bs

def upperBound (pre : Bytes) : Option Bytes := (successor pre.reverse).map List.reverse

/-- The loop over children: skip those below the prefix, and stop after the first that reaches the
bound. -/
def collectRun (f : D → Result (List (Bytes × Bytes))) (pre : Bytes) (upper : Option Bytes) :
    ChildRun D → Result (List (Bytes × Bytes))
  | [] => .ok []
  | c :: ch =>
    if c.1 < pre then collectRun f pre upper ch
    else do
      let es ← f c.2
      if past upper c.1 then .ok es else return es ++ (← collectRun f pre upper ch)

def collectPrefix (pre : Bytes) (upper : Option Bytes) :
    (left : ℕ) → D → Result (List (Bytes × Bytes))
  | 0, _ => .error (.corrupt "prolly tree too deep")
  | left + 1, d => do
    match ← read d with
    | .leaf es => .ok (es.filter fun e => pre.isPrefixOf e.1)
    | .internal ch => collectRun (collectPrefix pre upper left) pre upper ch

def scanPrefix (root : D) (pre : Bytes) : Result (List (Bytes × Bytes)) :=
  collectPrefix read pre (upperBound pre) (maxDepth + 1) root

def openPrefix (root : D) (pre : Bytes) : Result (Cursor D) :=
  openRange read root (some pre) (upperBound pre)

/-! ## The search invariant -/

/-- Children whose entries lie between the key stored before and their own. -/
inductive SearchRun (P : D → List (Bytes × Bytes) → Prop) : ChildRun D → List (Bytes × Bytes) → Prop
  | nil : SearchRun P [] []
  | cons {c : Bytes × D} {ch : ChildRun D} {es E : List (Bytes × Bytes)} (hc : P c.2 es)
      (hle : ∀ e ∈ es, e.1 ≤ c.1) (hlt : ∀ e ∈ E, c.1 < e.1) (hch : SearchRun P ch E) :
      SearchRun P (c :: ch) (es ++ E)

/-- The nodes below `d`, in at most `n` levels, hold the entries `E` in search order. -/
def Searches : (n : ℕ) → D → List (Bytes × Bytes) → Prop
  | 0, d, E => read d = .ok (.leaf E) ∧ Ascending E
  | n + 1, d, E => (read d = .ok (.leaf E) ∧ Ascending E) ∨
      ∃ ch, read d = .ok (.internal ch) ∧ SearchRun (Searches n) ch E

variable {read} {n left : ℕ} {d : D} {E : List (Bytes × Bytes)}

theorem Searches.ascending (h : Searches read n d E) : Ascending E := by
  induction n generalizing d E with
  | zero => exact h.2
  | succ n ih =>
    obtain h | ⟨ch, -, hch⟩ := h
    · exact h.2
    · induction hch with
      | nil => exact List.Pairwise.nil
      | cons hc hle hlt _ ihrun =>
        exact pairwise_append.mpr ⟨ih hc, ihrun, fun a ha b hb =>
          lt_of_le_of_lt (hle a ha) (hlt b hb)⟩

/-- The trees that are built can be searched in order. -/
theorem Rep.searches : ∀ {n : ℕ} {t : Tree Bytes Bytes n} {d : D}, Rep read n t d → Full n t →
    Ascending (flatten n t) → Searches read n d (flatten n t)
  | 0, _, _, hr, _, hasc => ⟨hr, hasc⟩
  | n + 1, ts, _, ⟨ch, hd, hch⟩, ⟨hne, hf⟩, hasc => by
    refine .inr ⟨ch, hd, ?_⟩
    clear hd hne
    induction hch with
    | nil => exact .nil
    | @cons t c ts ch hc hch ih =>
      rw [flatten_succ, contents_cons] at hasc ⊢
      obtain ⟨hhead, htail, hsep⟩ := pairwise_append.mp hasc
      obtain ⟨hft, hfts⟩ := forall_mem_cons.mp hf
      refine .cons (Rep.searches hc.2 hft hhead) (fun e he => ?_) (fun e he => ?_) (ih hfts htail)
      · rw [hc.1]
        exact le_maxKey hft hhead e he
      · obtain ⟨m, hm, hmax⟩ := exists_maxKey hft
        rw [hc.1, ← hmax]
        exact hsep m hm e he

/-! ## What a cursor gives -/

variable {stack : List (ChildRun D)} {start upper : Option Bytes} {L : List (Bytes × Bytes)}

variable (read) in
/-- Draining the cursor gives the list, with all fuel that is enough. -/
def Drains (cur : Cursor D) (L : List (Bytes × Bytes)) : Prop :=
  ∃ N, ∀ fuel, N ≤ fuel → drain read fuel cur = some (.ok L)

theorem drains_of_end {cur : Cursor D} (h : turn read cur = .ok none) : Drains read cur [] := by
  refine ⟨1, fun fuel hfuel => ?_⟩
  obtain ⟨fuel, rfl⟩ := Nat.exists_eq_succ_of_ne_zero (by omega : fuel ≠ 0)
  rw [drain, h]

theorem drains_of_turn {cur cur' : Cursor D} {e : Option (Bytes × Bytes)}
    (h : turn read cur = .ok (some (e, cur'))) (hcur : Drains read cur' L) :
    Drains read cur (e.toList ++ L) := by
  obtain ⟨N, hN⟩ := hcur
  refine ⟨N + 1, fun fuel hfuel => ?_⟩
  obtain ⟨fuel, rfl⟩ := Nat.exists_eq_succ_of_ne_zero (by omega : fuel ≠ 0)
  rw [drain, h]
  dsimp only
  rw [hN fuel (by omega)]
  rfl

theorem drains_congr {cur cur' : Cursor D} (h : turn read cur = turn read cur')
    (hcur : Drains read cur L) : Drains read cur' L := by
  obtain ⟨N, hN⟩ := hcur
  refine ⟨N, fun fuel hfuel => ?_⟩
  rw [← hN fuel hfuel]
  cases fuel with
  | zero => rfl
  | succ fuel => rw [drain, drain, h]

def cut (upper : Option Bytes) (E : List (Bytes × Bytes)) : List (Bytes × Bytes) :=
  E.takeWhile fun e => !past upper e.1

def tailFrom (start : Option Bytes) (E : List (Bytes × Bytes)) : List (Bytes × Bytes) :=
  E.dropWhile fun e => before start e.1

variable (read upper) in
/-- Once the current leaf is spent, the cursor gives the entries below the stack. -/
def Pending (stack : List (ChildRun D)) (E : List (Bytes × Bytes)) : Prop :=
  ∀ start, Drains read ⟨stack, [], start, upper⟩ (cut upper E)

theorem Pending.leaf (h : Pending read upper stack E) (es : List (Bytes × Bytes)) :
    Drains read ⟨stack, es, start, upper⟩ (cut upper (es ++ E)) := by
  induction es with
  | nil => exact h start
  | cons e es ih =>
    by_cases hu : past upper e.1
    · rw [cons_append, cut, takeWhile_cons_of_neg (by simp [hu])]
      exact drains_of_end (by simp [turn, hu])
    · rw [cons_append, cut, takeWhile_cons_of_pos (by simp [hu])]
      exact drains_of_turn (e := some e) (by simp [turn, hu]) ih

theorem pending_nil : Pending read upper [] [] := fun _ => drains_of_end rfl

theorem SearchRun.dropWhile {P : D → List (Bytes × Bytes) → Prop} {ch : ChildRun D}
    (h : SearchRun P ch E) (start : Option Bytes) :
    ∃ E', SearchRun P (ch.dropWhile fun c => before start c.1) E' ∧
      tailFrom start E = tailFrom start E' := by
  induction h with
  | nil => exact ⟨[], .nil, rfl⟩
  | @cons c ch es E hc hle hlt hch ih =>
    by_cases hs : before start c.1
    · rw [dropWhile_cons_of_pos (p := fun c : Bytes × D => before start c.1) hs]
      obtain ⟨E', hrun, heq⟩ := ih
      refine ⟨E', hrun, Eq.trans ?_ heq⟩
      exact dropWhile_append_of_pos fun e he => before_of_le (hle e he) hs
    · rw [dropWhile_cons_of_neg (p := fun c : Bytes × D => before start c.1) hs]
      exact ⟨es ++ E, .cons hc hle hlt hch, rfl⟩

theorem tailFrom_none (E : List (Bytes × Bytes)) : tailFrom none E = E := by
  cases E <;> rfl

theorem tailFrom_append {es : List (Bytes × Bytes)} (h : ∀ e ∈ E, ¬ before start e.1) :
    tailFrom start (es ++ E) = tailFrom start es ++ E := by
  rw [tailFrom, tailFrom, dropWhile_append]
  split_ifs with hnil
  · rw [isEmpty_iff.mp hnil, nil_append]
    cases E with
    | nil => rfl
    | cons e E => exact dropWhile_cons_of_neg (by simpa using h e (by simp))
  · rfl

/-- **A descent leads to the entries of the subtree from the start on.** -/
theorem descendFrom_spec (h : Searches read n d E) (hn : n < left) {E' leaf : List (Bytes × Bytes)}
    (hstack : Pending read upper stack E') (hguard : left ≤ maxDepth * maxDepth) :
    ∃ cur, descendFrom read left d ⟨stack, leaf, start, upper⟩ = .ok cur ∧
      Drains read cur (cut upper (tailFrom start E ++ E')) := by
  induction n generalizing left d E start stack E' leaf with
  | zero =>
    obtain ⟨left, rfl⟩ := Nat.exists_eq_succ_of_ne_zero (by omega : left ≠ 0)
    rw [descendFrom, h.1]
    exact ⟨_, rfl, hstack.leaf _⟩
  | succ n ih =>
    obtain ⟨left, rfl⟩ := Nat.exists_eq_succ_of_ne_zero (by omega : left ≠ 0)
    rw [descendFrom]
    obtain h | ⟨ch, hd, hch⟩ := h
    · rw [h.1]
      exact ⟨_, rfl, hstack.leaf _⟩
    · -- The children that are left of a node wait on the stack.
      have hwait : ∀ {ch : ChildRun D} {E : List (Bytes × Bytes)}, SearchRun (Searches read n) ch E →
          Pending read upper (ch :: stack) (E ++ E') := by
        intro ch E hch
        induction hch with
        | nil => exact fun start => drains_congr (by rfl) (hstack start)
        | @cons c ch es E hc hle hlt hch ihrun =>
          intro start
          obtain ⟨cur, hcur, hdrains⟩ : ∃ cur, descendFrom read (maxDepth * maxDepth) c.2
              ⟨ch :: stack, [], none, upper⟩ = .ok cur ∧
                Drains read cur (cut upper (tailFrom none es ++ (E ++ E'))) :=
            ih hc (by omega) ihrun le_rfl
          rw [tailFrom_none] at hdrains
          have hturn : turn read ⟨(c :: ch) :: stack, [], start, upper⟩ = .ok (some (none, cur)) := by
            change (descendFrom read (maxDepth * maxDepth) c.2 ⟨ch :: stack, [], none, upper⟩ >>=
              fun cur => .ok (some (none, cur))) = _
            rw [hcur, ok_bind]
          rw [append_assoc]
          exact drains_of_turn hturn hdrains
      rw [hd, ok_bind]
      dsimp only
      obtain ⟨E₁, hrun, htail⟩ := hch.dropWhile start
      rw [htail]
      cases hrest : ch.dropWhile fun c => before start c.1 with
      | nil =>
        rw [hrest] at hrun
        cases hrun
        exact ⟨_, rfl, hstack.leaf []⟩
      | cons c rest =>
        rw [hrest] at hrun
        cases hrun with
        | @cons _ _ es E hc hle hlt hch =>
          have hc' : ¬ before start c.1 := by
            have := List.head?_dropWhile_not (fun c : Bytes × D => before start c.1) ch
            simpa [hrest] using this
          rw [tailFrom_append fun e he hs => hc' (before_of_le (hlt e he).le hs), append_assoc]
          exact ih hc (by omega) (hwait hch) (by omega)

/-! ## Ranges -/

theorem takeWhile_eq_filter {α : Type} {p : α → Bool} {l : List α}
    (h : l.Pairwise fun a b => p b → p a) : l.takeWhile p = l.filter p := by
  induction l with
  | nil => rfl
  | cons a l ih =>
    obtain ⟨ha, hl⟩ := pairwise_cons.mp h
    by_cases hp : p a
    · rw [takeWhile_cons_of_pos hp, filter_cons_of_pos hp, ih hl]
    · rw [takeWhile_cons_of_neg hp, filter_cons_of_neg hp]
      exact (filter_eq_nil_iff.mpr fun b hb hpb => hp (ha b hb hpb)).symm

theorem dropWhile_eq_filter {α : Type} {p : α → Bool} {l : List α}
    (h : l.Pairwise fun a b => p b → p a) : l.dropWhile p = l.filter (!p ·) := by
  induction l with
  | nil => rfl
  | cons a l ih =>
    obtain ⟨ha, hl⟩ := pairwise_cons.mp h
    by_cases hp : p a
    · rw [dropWhile_cons_of_pos hp, filter_cons_of_neg (by simp [hp]), ih hl]
    · rw [dropWhile_cons_of_neg hp, filter_eq_self.mpr]
      simpa [hp] using fun b hb => Bool.eq_false_iff.mpr fun hpb => hp (ha b hb hpb)

theorem drains_openRange (h : Searches read n d E) (hn : n < maxDepth * maxDepth)
    (start upper : Option Bytes) :
    ∃ cur, openRange read d start upper = .ok cur ∧ Drains read cur
      (E.filter fun e => !before start e.1 && !past upper e.1) := by
  obtain ⟨cur, hcur, hdrains⟩ : ∃ cur, openRange read d start upper = .ok cur ∧
      Drains read cur (cut upper (tailFrom start E ++ [])) :=
    descendFrom_spec h hn pending_nil le_rfl
  refine ⟨cur, hcur, ?_⟩
  have hstart : tailFrom start E = E.filter fun e => !before start e.1 :=
    dropWhile_eq_filter (h.ascending.imp fun hab => before_of_le hab.le)
  have hupper : cut upper (tailFrom start E) = (tailFrom start E).filter fun e => !past upper e.1 := by
    refine takeWhile_eq_filter ?_
    rw [hstart]
    refine (h.ascending.filter _).imp fun hab hb => ?_
    simp only [Bool.not_eq_true'] at hb ⊢
    exact Bool.eq_false_iff.mpr fun ha => Bool.eq_false_iff.mp hb (past_of_le hab.le ha)
  rw [append_nil, hupper, hstart, filter_filter] at hdrains
  simpa only [Bool.and_comm] using hdrains

/-! ## Prefixes -/

theorem successor_append (l : Bytes) (b : UInt8) : successor (l ++ [b]) = match successor l with
      | some u => some (u ++ [b])
      | none => if b < 0xFF then some [b + 1] else none := by
  induction l with
  | nil => rfl
  | cons a l ih =>
    rw [cons_append, successor, successor]
    by_cases ha : a < 0xFF
    · rw [if_pos ha, if_pos ha]
      rfl
    · rw [if_neg ha, if_neg ha, ih]

theorem upperBound_cons (b : UInt8) (pre : Bytes) :
    upperBound (b :: pre) = match upperBound pre with
      | some u => some (b :: u)
      | none => if b < 0xFF then some [b + 1] else none := by
  rw [upperBound, upperBound, reverse_cons, successor_append]
  cases successor pre.reverse with
  | some u => simp
  | none =>
    split_ifs <;> rfl

/-- **The keys from a prefix up to its bound are those that start with it.** -/
theorem mem_upperBound_iff (pre key : Bytes) :
    (¬ before (some pre) key ∧ ¬ past (upperBound pre) key) ↔ pre <+: key := by
  induction pre generalizing key with
  | nil => simp [before, past, upperBound, successor]
  | cons b pre ih =>
    cases key with
    | nil => simp [before]
    | cons c key =>
      have hsucc : b < 0xFF → (c < b + 1 ↔ c ≤ b) := by
        simp only [UInt8.lt_iff_toNat_lt, UInt8.le_iff_toNat_le, UInt8.toNat_add]
        intro hb
        change b.toNat < 255 at hb
        change c.toNat < (b.toNat + 1) % 256 ↔ _
        omega
      rw [cons_prefix_cons, ← ih key, upperBound_cons]
      simp only [before, past, Option.any_some, decide_eq_true_eq, cons_lt_cons_iff]
      cases upperBound pre with
      | some u =>
        simp only [Option.any_some, decide_eq_true_eq, not_le, cons_lt_cons_iff]
        grind
      | none =>
        split_ifs with hb
        · simp only [Option.any_some, Option.any_none, decide_eq_true_eq, not_le,
            cons_lt_cons_iff, not_lt_nil, hsucc hb]
          grind
        · grind

theorem collectRun_eq {P : D → List (Bytes × Bytes) → Prop} {pre : Bytes} {ch : ChildRun D}
    {f : D → Result (List (Bytes × Bytes))}
    (hf : ∀ d es, P d es → f d = .ok (es.filter fun e => pre.isPrefixOf e.1))
    (h : SearchRun P ch E) :
    collectRun f pre (upperBound pre) ch = .ok (E.filter fun e => pre.isPrefixOf e.1) := by
  induction h with
  | nil => rfl
  | @cons c ch es E hc hle hlt hch ih =>
    rw [collectRun, filter_append]
    have hrange : ∀ {e : Bytes × Bytes}, pre.isPrefixOf e.1 →
        ¬ before (some pre) e.1 ∧ ¬ past (upperBound pre) e.1 := fun h =>
      (mem_upperBound_iff pre _).mpr ( isPrefixOf_iff_prefix.mp h)
    split_ifs with hbelow hpast
    · have hes : es.filter (fun e => pre.isPrefixOf e.1) = [] :=
        filter_eq_nil_iff.mpr fun e he hpre =>
          (hrange hpre).1 (decide_eq_true (lt_of_le_of_lt (hle e he) hbelow))
      rw [ih, hes, nil_append]
    · have hE : E.filter (fun e => pre.isPrefixOf e.1) = [] :=
        filter_eq_nil_iff.mpr fun e he hpre =>
          (hrange hpre).2 (past_of_le (hlt e he).le hpast)
      rw [hf _ _ hc, ok_bind, hE, append_nil]
    · rw [hf _ _ hc, ok_bind, ih]
      rfl

theorem collectPrefix_eq (pre : Bytes) (h : Searches read n d E) (hn : n < left) :
    collectPrefix read pre (upperBound pre) left d =
      .ok (E.filter fun e => pre.isPrefixOf e.1) := by
  induction n generalizing left d E with
  | zero =>
    obtain ⟨left, rfl⟩ := Nat.exists_eq_succ_of_ne_zero (by omega : left ≠ 0)
    rw [collectPrefix, h.1]
    rfl
  | succ n ih =>
    obtain ⟨left, rfl⟩ := Nat.exists_eq_succ_of_ne_zero (by omega : left ≠ 0)
    rw [collectPrefix]
    obtain h | ⟨ch, hd, hch⟩ := h
    · rw [h.1]
      rfl
    · rw [hd, ok_bind]
      exact collectRun_eq (fun d es hes => ih hes (by omega)) hch

/-- **A cursor gives the entries in its range, and prefix reads those that start with the
prefix.** The scan reads fewer levels than the cursor. -/
theorem range_spec (h : Searches read n d E) (hn : n < maxDepth * maxDepth) : Ascending E ∧
    (∀ start upper, ∃ cur, openRange read d start upper = .ok cur ∧
      Drains read cur (E.filter fun e => !before start e.1 && !past upper e.1)) ∧
    ∀ pre, (∃ cur, openPrefix read d pre = .ok cur ∧
        Drains read cur (E.filter fun e => pre.isPrefixOf e.1)) ∧
      (n ≤ maxDepth → scanPrefix read d pre = .ok (E.filter fun e => pre.isPrefixOf e.1)) := by
  refine ⟨h.ascending, drains_openRange h hn, fun pre =>
    ⟨?_, fun hdepth => collectPrefix_eq pre h (by omega)⟩⟩
  obtain ⟨cur, hcur, hdrains⟩ := drains_openRange h hn (some pre) (upperBound pre)
  refine ⟨cur, hcur, ?_⟩
  convert hdrains using 3 with e
  rw [Bool.eq_iff_iff, isPrefixOf_iff_prefix, ← mem_upperBound_iff]
  simp

/-- A leaf under a chain of nodes with one child each. -/
def chain : ℕ → Result (Node ℕ)
  | 0 => .ok (.leaf [([1], [])])
  | k + 1 => .ok (.internal [([1], k)])

theorem chain_searches (k : ℕ) : Searches chain k k [([1], [])] := by
  induction k with
  | zero => exact ⟨rfl, pairwise_singleton _ _⟩
  | succ k ih =>
    refine .inr ⟨[([1], k)], rfl, ?_⟩
    exact SearchRun.cons (P := Searches chain k) (c := ([1], k)) (E := []) ih (by simp) (by simp) .nil

theorem range_spec_chain : ∃ cur, openRange chain 3 (some [0]) (some [1, 0]) = .ok cur ∧
    Drains chain cur [([1], [])] :=
  (range_spec (chain_searches 3) (by decide)).2.1 (some [0]) (some [1, 0])

/-- The scan gives up on a tree that the cursor reads. -/
theorem scanPrefix_chain : Searches chain 65 65 [([1], [])] ∧
    (∃ cur, openPrefix chain 65 [1] = .ok cur ∧ Drains chain cur [([1], [])]) ∧
    scanPrefix chain 65 [1] = .error (.corrupt "prolly tree too deep") :=
  ⟨chain_searches 65, drains_openRange (chain_searches 65) (by decide) (some [1]) (some [2]),
    by decide +kernel⟩

end UldrenLoom.Prolly
