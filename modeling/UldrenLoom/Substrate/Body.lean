import UldrenLoom.Lib.Utf8
import UldrenLoom.Substrate.Sequencer

/-!
# Text of a body

A block keeps its text as runs, each with its marks. A splice replaces the bytes of a range.

* **`splice_frame_iff`**: a splice keeps what is outside its range exactly if all characters of the
  result have the marks of the first replacement run, and these are valid: the text becomes one run.
-/

namespace UldrenLoom.Substrate

open ByteString Fallible List

/-! ## Splices -/

inductive Mark where
  | bold
  | italic
  | underline
  | strike
  | code
  | link (href : Text)
deriving DecidableEq

/-- Marks are ordered as they are listed, and links by their target. -/
def Mark.key : Mark → ℕ ×ₗ Text
  | .bold => toLex (0, "")
  | .italic => toLex (1, "")
  | .underline => toLex (2, "")
  | .strike => toLex (3, "")
  | .code => toLex (4, "")
  | .link href => toLex (5, href)

def Mark.validate : Mark → Result Unit
  | .link href => validateText "link href" href
  | _ => .ok ()

structure TextRun where
  text : List Char
  marks : List Mark
deriving DecidableEq

/-- The marks of a run in order, each once. -/
def sortMarks (marks : List Mark) : List Mark := (marks.mergeSort fun a b => a.key ≤ b.key).dedup

def TextRun.new (text : List Char) (marks : List Mark) : Result TextRun :=
  if text = [] then .error (.invalid "text run must not be empty")
  else do
    (sortMarks marks).forM Mark.validate
    .ok ⟨text, sortMarks marks⟩

/-- Adjacent runs with the same marks are joined. -/
def pushRun (out : List TextRun) (run : TextRun) : List TextRun :=
  match out.getLast? with
  | some last =>
    if last.marks = run.marks then out.dropLast ++ [⟨last.text ++ run.text, last.marks⟩]
    else out ++ [run]
  | none => out ++ [run]

variable (runs : List TextRun)

def normalizeRuns : List TextRun := runs.foldl pushRun []

def runsText : List Char := runs.flatMap TextRun.text

/-- Whether an offset into the runs is between two characters. -/
def boundaryIn : List TextRun → ℕ → Bool
  | [], offset => offset = 0
  | run :: runs, offset =>
    if offset ≤ byteLen run.text then (splitAtBytes offset run.text).isSome
    else boundaryIn runs (offset - byteLen run.text)

def isCharBoundary (offset : ℕ) : Bool :=
  offset ≤ byteLen (runsText runs) && boundaryIn runs offset

/-- A text with the bytes of a range replaced, if its ends are between characters. -/
def replaceRange (text : List Char) (start stop : ℕ) (new : List Char) : Option (List Char) := do
  let (before, _) ← splitAtBytes start text
  let (_, after) ← splitAtBytes stop text
  some (before ++ new ++ after)

def replacementRuns (text : List Char) (replacement : List TextRun) : List TextRun :=
  (TextRun.new text ((replacement.head?.map TextRun.marks).getD [])).toOption.toList

/-- The runs of a block after a splice. The source panics if the ends are not between characters. -/
def spliceBlockText (start stop : ℕ) (replacement : List TextRun) : Result (List TextRun) :=
  if stop < start then .error (.invalid "splice range is inverted")
  else if !isCharBoundary runs start || !isCharBoundary runs stop then
    .error (.invalid "splice range must use UTF-8 byte boundaries")
  else
    match replaceRange (runsText runs) start stop (runsText replacement) with
    | some text => .ok (normalizeRuns (replacementRuns text replacement))
    | none => .error ⟨.internal, "not a character boundary"⟩

/-! ## What a splice does -/

/-- The characters of some runs, each with the set of its marks. -/
def marked : List (Char × Finset Mark) :=
  runs.flatMap fun r => r.text.map fun c => (c, r.marks.toFinset)

theorem map_fst_marked : (marked runs).map Prod.fst = runsText runs := by
  simp [marked, runsText, map_flatMap, Function.comp_def]

variable {runs : List TextRun}

theorem boundaryIn_append {a b : List Char} (h : runsText runs = a ++ b) :
    boundaryIn runs (byteLen a) = true := by
  induction runs generalizing a with
  | nil =>
    obtain ⟨rfl, rfl⟩ := append_eq_nil_iff.mp h.symm
    rfl
  | cons run runs ih =>
    rw [boundaryIn]
    rcases append_eq_append_iff.mp (show run.text ++ runsText runs = a ++ b from h) with
      ⟨c, rfl, hc⟩ | ⟨c, hc, rfl⟩
    · rw [byteLen_append]
      split_ifs with hle
      · obtain rfl := byteLen_eq_zero.mp (show byteLen c = 0 by omega)
        rw [splitAtBytes_eq_some.mpr ⟨(append_nil run.text).symm, by simp [byteLen]⟩]
        rfl
      · rw [Nat.add_sub_cancel_left]
        exact ih hc
    · rw [hc, byteLen_append, if_pos (Nat.le_add_right _ _), splitAtBytes_eq_some.mpr ⟨rfl, rfl⟩]
      rfl

theorem isCharBoundary_append {a b : List Char} (h : runsText runs = a ++ b) :
    isCharBoundary runs (byteLen a) = true := by
  rw [isCharBoundary, boundaryIn_append h, h, byteLen_append]
  simp

/-- The marks that all text gets. -/
def firstMarks (replacement : List TextRun) : List Mark :=
  (replacement.head?.map TextRun.marks).getD []

theorem spliceBlockText_eq {a m b : List Char} (h : runsText runs = a ++ m ++ b)
    (replacement : List TextRun) :
    spliceBlockText runs (byteLen a) (byteLen (a ++ m)) replacement =
      .ok (replacementRuns (a ++ runsText replacement ++ b) replacement) := by
  have hsplit : runsText runs = a ++ (m ++ b) := by rw [h, append_assoc]
  have hone : ∀ o : Option TextRun, normalizeRuns o.toList = o.toList := by rintro (_ | _) <;> rfl
  rw [spliceBlockText, if_neg (by rw [byteLen_append]; omega), isCharBoundary_append h,
    isCharBoundary_append hsplit, replaceRange, splitAtBytes_eq_some.mpr ⟨h, rfl⟩,
    splitAtBytes_eq_some.mpr ⟨hsplit, rfl⟩]
  exact congrArg Except.ok (hone _)

theorem marked_replacementRuns (text : List Char) (replacement : List TextRun) :
    marked (replacementRuns text replacement) =
      if (sortMarks (firstMarks replacement)).forM Mark.validate = .ok () then
        text.map fun c => (c, (firstMarks replacement).toFinset) else [] := by
  have hset : (sortMarks (firstMarks replacement)).toFinset = (firstMarks replacement).toFinset := by
    ext mark
    simp [sortMarks]
  rw [replacementRuns, ← firstMarks, TextRun.new]
  by_cases htext : text = []
  · simp [htext, marked, Except.toOption]
  · rw [if_neg htext]
    cases h : (sortMarks (firstMarks replacement)).forM Mark.validate with
    | error e => rfl
    | ok u => simp [marked, Except.toOption, hset]

/-- **When a splice changes only its range.** -/
theorem splice_frame_iff {pre mid post : List (Char × Finset Mark)}
    (h : marked runs = pre ++ mid ++ post) (replacement : List TextRun) :
    ∃ runs', spliceBlockText runs (byteLen (pre.map Prod.fst)) (byteLen ((pre ++ mid).map Prod.fst))
        replacement = .ok runs' ∧
      (marked runs' = pre ++ marked replacement ++ post ↔
        ∀ c ∈ pre ++ marked replacement ++ post, c.2 = (firstMarks replacement).toFinset ∧
          (sortMarks (firstMarks replacement)).forM Mark.validate = .ok ()) := by
  have htext : runsText runs = pre.map Prod.fst ++ mid.map Prod.fst ++ post.map Prod.fst := by
    rw [← map_fst_marked, h, map_append, map_append]
  refine ⟨_, map_append (f := Prod.fst) ▸ spliceBlockText_eq htext replacement, ?_⟩
  rw [marked_replacementRuns, ← map_fst_marked replacement, ← map_append, ← map_append, map_map]
  split_ifs with hvalid
  · simp only [hvalid, and_true]
    constructor
    · intro heq c hc
      rw [← heq] at hc
      obtain ⟨c', -, rfl⟩ := mem_map.mp hc
      rfl
    · intro hall
      refine (map_congr_left (g := id) fun c hc => ?_).trans (map_id _)
      exact Prod.ext rfl (hall c hc).symm
  · simp only [hvalid, and_false]
    rw [eq_comm, eq_nil_iff_forall_not_mem]

namespace Sample

theorem splice_plain : ∃ runs', spliceBlockText [⟨['a', 'b'], []⟩] 1 2 [⟨['c'], []⟩] = .ok runs' ∧
    marked runs' = [('a', ∅), ('c', ∅)] := by
  obtain ⟨runs', hok, hiff⟩ := @splice_frame_iff [⟨['a', 'b'], []⟩] [('a', ∅)] [('b', ∅)] [] rfl
    [⟨['c'], []⟩]
  exact ⟨runs', hok, hiff.mpr (by decide +kernel)⟩

/-- The bold character before the range loses its mark. -/
theorem splice_bold : ∃ runs', spliceBlockText [⟨['a', 'b'], [.bold]⟩] 1 2 [⟨['c'], []⟩] = .ok runs' ∧
    marked runs' ≠ [('a', {.bold}), ('c', ∅)] :=
  ⟨[⟨['a', 'c'], []⟩], by decide +kernel, by decide⟩

end Sample

end UldrenLoom.Substrate
