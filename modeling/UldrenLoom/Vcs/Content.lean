import UldrenLoom.Lib.Cutter
import UldrenLoom.Vcs.Replay

/-!
# Editing file content

Large content is a list of chunks that are cut where the content says. An edit reads the old chunks
window by window and cuts the new content as it goes.

* **`stream_chunks`**: the chunks of a stream are those of the whole.
* **`edits_agree_iff`**: when an edit is the plain edit, stored; **`resize_overflow`**.
-/

namespace UldrenLoom.Vcs

open ByteString Fallible Effect Cutter List SortedMap Nat

/-! ## Cutting content -/

def minSize : ℕ := 512 * 1024

def avgSize : ℕ := 1024 * 1024

def maxSize : ℕ := 4 * 1024 * 1024

def maskSBits : UInt64 := 22

def maskLBits : UInt64 := 18

def gearFrom : ℕ → UInt64 → List UInt64
  | 0, _ => []
  | n + 1, state =>
    let state := state + 0x9E3779B97F4A7C15
    let z := (state ^^^ (state >>> 30)) * 0xBF58476D1CE4E5B9
    let z := (z ^^^ (z >>> 27)) * 0x94D049BB133111EB
    (z ^^^ (z >>> 31)) :: gearFrom n state

def gear : List UInt64 := gearFrom 256 0x9E3779B97F4A7C15

/-- The first boundary after `i` bytes with the rolling hash `fp`. -/
def scan : Bytes → (fp : UInt64) → (i : ℕ) → Option ℕ
  | [], _, _ => none
  | b :: bs, fp, i =>
    let fp := (fp <<< 1) + gear.getD b.toNat 0
    let i := i + 1
    if i < minSize then scan bs fp i
    else if fp >>> (64 - if i < avgSize then maskSBits else maskLBits) = 0 then some i
    else scan bs fp i

def cutPoint (data : Bytes) : ℕ :=
  if data.length ≤ minSize then data.length
  else (scan (data.take maxSize) 0 0).getD (min data.length maxSize)

variable {bs : Bytes} {fp : UInt64} {i j : ℕ}

theorem scan_cons {b : UInt8} (h : scan (b :: bs) fp i = some j) :
    scan bs ((fp <<< 1) + gear.getD b.toNat 0) (i + 1) = some j ∨ i + 1 = j := by
  rw [scan] at h
  by_cases h1 : i + 1 < minSize
  · rw [if_pos h1] at h
    exact .inl h
  · rw [if_neg h1] at h
    generalize hm : (64 - if i + 1 < avgSize then maskSBits else maskLBits) = m at h
    split at h
    · exact .inr (Option.some.inj h)
    · exact .inl h

theorem scan_spec (h : scan bs fp i = some j) : i < j ∧ j ≤ i + bs.length := by
  induction bs generalizing fp i with
  | nil => cases h
  | cons b bs ih =>
    rw [length_cons]
    rcases scan_cons h with h | h
    · have := ih h
      omega
    · omega

theorem minSize_le_of_scan (h : scan bs fp i = some j) : minSize ≤ j := by
  induction bs generalizing fp i with
  | nil => cases h
  | cons b bs ih =>
    rw [scan] at h
    by_cases h1 : i + 1 < minSize
    · rw [if_pos h1] at h
      exact ih h
    · rw [if_neg h1] at h
      generalize hm : (64 - if i + 1 < avgSize then maskSBits else maskLBits) = m at h
      split at h
      · exact Option.some.inj h ▸ not_lt.mp h1
      · exact ih h

theorem scan_append (more : Bytes) (h : scan bs fp i = some j) :
    scan (bs ++ more) fp i = some j := by
  induction bs generalizing fp i with
  | nil => cases h
  | cons b bs ih =>
    rw [cons_append]
    rw [scan] at h ⊢
    by_cases h1 : i + 1 < minSize
    · rw [if_pos h1] at h ⊢
      exact ih h
    · rw [if_neg h1] at h ⊢
      generalize hm : (64 - if i + 1 < avgSize then maskSBits else maskLBits) = m at h ⊢
      split at h
      · rwa [if_pos ‹_›]
      · rw [if_neg ‹_›]
        exact ih h

theorem cutPoint_bounds {data : Bytes} (h : data ≠ []) :
    0 < cutPoint data ∧ cutPoint data ≤ data.length := by
  have hpos := length_pos_of_ne_nil h
  have hmax : 0 < maxSize := by decide
  unfold cutPoint
  split_ifs with hle
  · exact ⟨hpos, le_rfl⟩
  · cases hs : scan (data.take maxSize) 0 0 with
    | none =>
      rw [Option.getD_none]
      omega
    | some j =>
      have := scan_spec hs
      rw [length_take] at this
      rw [Option.getD_some]
      omega

def cdc : Cut UInt8 where
  cutAt := cutPoint
  pos h := (cutPoint_bounds h).1
  le data := by
    cases data with
    | nil => exact Nat.le_of_eq rfl
    | cons b bs => exact (cutPoint_bounds (List.cons_ne_nil b bs)).2

def chunk (data : Bytes) : List Bytes := cdc.chunks data

/-- **A cut is settled** once it is inside the buffer or the buffer has the size of a largest chunk. -/
theorem settled_cdc : cdc.Settled maxSize := by
  intro buf more hne h
  change cutPoint buf < buf.length ∨ maxSize ≤ buf.length at h
  change cutPoint (buf ++ more) = cutPoint buf
  have hmin : minSize < maxSize := by decide
  have hlen : minSize < buf.length := by
    by_contra hle
    rcases h with h | h
    · rw [cutPoint, if_pos (by omega)] at h
      omega
    · omega
  rw [cutPoint, cutPoint, if_neg (by rw [length_append]; omega), if_neg (by omega)]
  by_cases hlong : maxSize ≤ buf.length
  · rw [take_append_of_le_length hlong, length_append, min_eq_right hlong, min_eq_right (by omega)]
  · have hcut := h.resolve_right hlong
    rw [cutPoint, if_neg (by omega)] at hcut
    cases hs : scan (buf.take maxSize) 0 0 with
    | none =>
      rw [hs, Option.getD_none] at hcut
      omega
    | some j =>
      rw [take_append, scan_append _ hs]
      rfl

theorem within_cdc : cdc.Within minSize maxSize := by
  intro data hne
  change cutPoint data ≤ maxSize ∧ (cutPoint data < data.length → minSize ≤ cutPoint data)
  have hmin : minSize < maxSize := by decide
  unfold cutPoint
  split_ifs with hle
  · exact ⟨by omega, fun h => absurd h (lt_irrefl _)⟩
  · cases hs : scan (data.take maxSize) 0 0 with
    | none =>
      rw [Option.getD_none]
      omega
    | some j =>
      have hj := scan_spec hs
      rw [length_take] at hj
      rw [Option.getD_some]
      exact ⟨by omega, fun _ => minSize_le_of_scan hs⟩

/-- What a chunker emits for a stream of blocks, the rest of its buffer at the end included. -/
def streamChunks (blocks : List Bytes) : List Bytes :=
  (cdc.pushAll maxSize [] blocks).1 ++ chunk (cdc.pushAll maxSize [] blocks).2

/-- **A stream is cut as its whole content is**, with a bounded buffer. -/
theorem stream_chunks (blocks : List Bytes) : streamChunks blocks = chunk blocks.flatten ∧
      (streamChunks blocks).flatten = blocks.flatten ∧
      (∀ piece ∈ (streamChunks blocks).dropLast, minSize ≤ piece.length ∧ piece.length ≤ maxSize) ∧
      (∀ piece ∈ streamChunks blocks, piece.length ≤ maxSize) ∧
      ∀ n, (cdc.pushAll maxSize [] (blocks.take n)).2.length < maxSize := by
  have hchunks : streamChunks blocks = chunk blocks.flatten := Cut.chunks_pushAll settled_cdc [] blocks
  have hle : ∀ piece ∈ streamChunks blocks, piece.length ≤ maxSize := fun piece hp =>
    Cut.length_le_of_mem within_cdc (hchunks ▸ hp)
  refine ⟨hchunks, hchunks ▸ Cut.flatten_chunks _, fun piece hp => ⟨?_, ?_⟩, hle, fun n => ?_⟩
  · exact Cut.le_length_of_mem within_cdc (hchunks ▸ hp)
  · exact hle piece (dropLast_subset _ hp)
  · exact Cut.length_pushAll_lt (by decide) (by decide) _

/-! ## Reading a part -/

section Read

variable {D : Type} [LinearOrder D] [ToString D] {hash : Stored D → D}

def contentObject (h : Heap hash) (addr : D) : Result (Object D) :=
  match h.content.get addr with
  | none => .error (.notFound ("content " ++ toString addr))
  | some obj => getObject h.store obj

def notContent (o : Object D) : LoomError :=
  .corrupt ("expected a Blob or ChunkList, got " ++ o.objectType.text)

def contentSize (h : Heap hash) (addr : D) : Result ℕ := do
  match ← contentObject h addr with
  | .blob bytes => .ok bytes.length
  | .chunkList totalSize _ => .ok totalSize.toNat
  | o => .error (notContent o)

/-- A slice that does not fit; the source panics. -/
def outOfRange : LoomError := .corrupt "range end index out of range for slice"

/-- The bytes from `lo` to `hi`. -/
def slice (bytes : Bytes) (lo hi : ℕ) : Result Bytes :=
  if hi ≤ bytes.length then .ok (window bytes lo hi) else .error outOfRange

/-- The part of the chunks, the first of them at `pos`, that lies between `offset` and `stop`. -/
def readChunks (s : ContentStore hash) (offset stop : ℕ) :
    (pos : ℕ) → List (ChunkRef D) → Result Bytes
  | _, [] => .ok []
  | pos, e :: es =>
    let chunkEnd := pos + e.size.toNat
    if chunkEnd ≤ offset then readChunks s offset stop chunkEnd es
    else if stop ≤ pos then .ok []
    else do
      let lo := max offset pos
      let hi := min stop chunkEnd
      match ← getObject s e.target with
      | .blob chunk => do
        let part ← slice chunk (lo - pos) (hi - pos)
        let rest ← readChunks s offset stop chunkEnd es
        .ok (part ++ rest)
      | o => .error (.corrupt
          ("chunk " ++ toString e.target ++ " is a " ++ o.objectType.text ++ ", not a Blob"))

/-- Addition of 64-bit numbers that stops at the largest one. -/
def saturatingAdd (a b : ℕ) : ℕ := min (a + b) (2 ^ 64 - 1)

/-- Read `len` bytes from `offset` on, or as many as there are. -/
def contentReadRange (h : Heap hash) (addr : D) (offset len : ℕ) : Result Bytes := do
  match ← contentObject h addr with
  | .blob bytes =>
    let total := bytes.length
    slice bytes (min offset total) (min (saturatingAdd offset len) total)
  | .chunkList totalSize entries =>
    let stop := min (saturatingAdd offset len) totalSize.toNat
    if stop ≤ offset then .ok [] else readChunks h.store offset stop 0 entries
  | o => .error (notContent o)

end Read

/-! ## Edits -/

/-- The kind of an edit. -/
inductive EditKind where
  | write (offset : ℕ) (data : Bytes)
  | truncate
deriving Repr, DecidableEq

/-- A planned edit: the old content, if there is any, and the sizes before and after. -/
structure EditPlan (D : Type) where
  src : Option D
  oldSize : ℕ
  newSize : ℕ
  kind : EditKind
deriving Repr, DecidableEq

namespace EditPlan

variable {D : Type}

def write (src : Option D) (oldSize offset : ℕ) (data : Bytes) : EditPlan D :=
  ⟨src, oldSize, max oldSize (offset + data.length), .write offset data⟩

def truncate (src : Option D) (oldSize size : ℕ) : EditPlan D := ⟨src, oldSize, size, .truncate⟩

end EditPlan

/-- A write at an offset, or a resize. -/
inductive Edit where
  | write (offset : ℕ) (data : Bytes)
  | truncate (size : ℕ)
deriving Repr, DecidableEq

namespace Edit

def plan {D : Type} (src : Option D) (oldSize : ℕ) : Edit → EditPlan D
  | write offset data => .write src oldSize offset data
  | truncate size => .truncate src oldSize size

/-- The plain edit: overwrite, with zeros for a gap, or cut or extend with zeros. -/
def apply (old : Bytes) : Edit → Bytes
  | write offset data => splice (resize old (max old.length (offset + data.length)) 0) offset data
  | truncate size => resize old size 0

theorem length_apply {D : Type} (src : Option D) (old : Bytes) (edit : Edit) :
    (edit.apply old).length = (edit.plan src old.length).newSize := by
  cases edit with
  | write offset data =>
    rw [apply, length_splice (by rw [length_resize]; omega), length_resize]
    rfl
  | truncate size => exact length_resize _ _ _

end Edit

variable {D : Type} [LinearOrder D] [ToString D] {hash : Stored D → D}

section Edit

/-- Copy the old bytes between `lo` and `hi` to the front of the window. -/
def copyOld (h : Heap hash) (plan : EditPlan D) (lo hi off : ℕ) (buf : Bytes) : Result Bytes :=
  match plan.src with
  | none => .ok buf
  | some src =>
    if lo < hi then do
      let old ← contentReadRange h src lo (hi - lo)
      .ok (splice buf off old)
    else .ok buf

def editWindow (h : Heap hash) (plan : EditPlan D) (start stop : ℕ) : Result Bytes := do
  let buf : Bytes := List.replicate (stop - start) 0
  match plan.kind with
  | .write offset data =>
    let lo := min start plan.oldSize
    let hi := min stop plan.oldSize
    let buf ← copyOld h plan lo hi (lo - start) buf
    let dlo := max start offset
    let dhi := min stop (offset + data.length)
    if dlo < dhi then
      .ok (splice buf (dlo - start) ((data.drop (dlo - offset)).take (dhi - dlo)))
    else .ok buf
  | .truncate => copyOld h plan start (min stop plan.oldSize) 0 buf

def blockSize : ℕ := minSize

/-- A sum that does not fit 64 bits; the source panics, or does not come to an end. -/
def overflow : LoomError := .corrupt "attempt to add with overflow"

def windowEnd (newSize pos : ℕ) : Result ℕ :=
  if pos + blockSize < 2 ^ 64 then .ok (min (pos + blockSize) newSize) else .error overflow

def readWindows (h : Heap hash) (plan : EditPlan D) : (fuel pos : ℕ) → Result Bytes
  | 0, _ => .ok []
  | fuel + 1, pos =>
    if pos < plan.newSize then do
      let stop ← windowEnd plan.newSize pos
      let window ← editWindow h plan pos stop
      let rest ← readWindows h plan fuel stop
      .ok (window ++ rest)
    else .ok []

def storeChunks (pieces : List Bytes) : Update (Heap hash) (List (ChunkRef D)) :=
  pieces.mapM fun piece => do
    let target ← Heap.onStore (putObject (.blob piece))
    return (⟨target, UInt64.ofNat piece.length⟩ : ChunkRef D)

/-- Stream the windows from `pos` on through the chunker, whose buffer is `buf`, and store the
chunks. -/
def streamWindows (plan : EditPlan D) : (fuel pos : ℕ) → (buf : Bytes) → List (ChunkRef D) →
    (hashed : Bytes) → Update (Heap hash) (List (ChunkRef D) × Bytes × Bytes)
  | 0, _, buf, entries, hashed => pure (entries, hashed, buf)
  | fuel + 1, pos, buf, entries, hashed =>
    if pos < plan.newSize then do
      let stop ← windowEnd plan.newSize pos
      let window ← editWindow (← get) plan pos stop
      let stored ← storeChunks (cdc.push maxSize buf window).1
      streamWindows plan fuel stop (cdc.push maxSize buf window).2 (entries ++ stored)
        (hashed ++ window)
    else pure (entries, hashed, buf)

def windowCount (plan : EditPlan D) : ℕ := plan.newSize / blockSize + 1

/-- Store an object as the content of an address. -/
def indexContent (addr : D) (o : Object D) : Update (Heap hash) Unit := do
  let obj ← Heap.onStore (putObject o)
  modify fun h => { h with content := h.content.insert addr obj }

variable (env : Env hash)

/-- Store the edited content: its address and its size. -/
def buildEditedContent (plan : EditPlan D) : Update (Heap hash) (D × ℕ) := do
  if plan.newSize ≤ chunkThreshold then do
    let buf ← readWindows (← get) plan (windowCount plan) 0
    indexContent (env.contentAddress buf) (.blob buf)
    return (env.contentAddress buf, plan.newSize)
  else do
    let (entries, hashed, buf) ← streamWindows plan (windowCount plan) 0 [] [] []
    let tail ← storeChunks (cdc.chunks buf)
    indexContent (env.contentAddress hashed)
      (.chunkList (UInt64.ofNat plan.newSize) (entries ++ tail))
    return (env.contentAddress hashed, plan.newSize)

end Edit

/-! ## What content is -/

section Content

/-- A chunk with its bytes. -/
def IsChunk (s : ContentStore hash) (e : ChunkRef D) (piece : Bytes) : Prop :=
  getObject s e.target = .ok (.blob piece) ∧ e.size.toNat = piece.length

/-- The content at an address: a blob, or a list of chunks. -/
def Content (h : Heap hash) (addr : D) (bytes : Bytes) : Prop :=
  bytes.length < 2 ^ 64 ∧ ∃ obj, h.content.get addr = some obj ∧
    (getObject h.store obj = .ok (.blob bytes) ∨ ∃ entries pieces,
      getObject h.store obj = .ok (.chunkList (UInt64.ofNat bytes.length) entries) ∧
        List.Forall₂ (IsChunk h.store) entries pieces ∧ pieces.flatten = bytes)

variable {h : Heap hash} {addr : D} {bytes : Bytes}

theorem IsChunk.mono {s t : ContentStore hash} (hle : s ≤ t) {e : ChunkRef D} {piece : Bytes}
    (h : IsChunk s e piece) : IsChunk t e piece :=
  ⟨getObject_mono hle h.1, h.2⟩

theorem Content.mono {h' : Heap hash} (hgrown : h.Grown h') (hc : Content h addr bytes) :
    Content h' addr bytes := by
  obtain ⟨hlen, obj, hget, hobj⟩ := hc
  refine ⟨hlen, obj, hgrown.2 ▸ hget, ?_⟩
  rcases hobj with hblob | ⟨entries, pieces, hlist, hchunks, hflat⟩
  · exact .inl (getObject_mono hgrown.1 hblob)
  · exact .inr ⟨entries, pieces, getObject_mono hgrown.1 hlist,
      hchunks.imp fun _ _ hc => hc.mono hgrown.1, hflat⟩

theorem loadContent_content (hc : Content h addr bytes) : loadContent h addr = .ok bytes := by
  obtain ⟨-, obj, hget, hobj⟩ := hc
  rw [loadContent, hget]
  rcases hobj with hblob | ⟨entries, pieces, hlist, hchunks, rfl⟩
  · simp only [hblob, ok_bind]
  · simp only [hlist, ok_bind]
    have hread := hchunks.flip.imp fun piece e he => he.1
    refine (concatMap_of_forall₂ (g := id) (hread.imp fun piece e he => ?_)).trans ?_
    · simp only [he, ok_bind, id]
    · rw [flatMap_id]

theorem slice_of_le {bytes : Bytes} {lo hi : ℕ} (h : hi ≤ bytes.length) :
    slice bytes lo hi = .ok (window bytes lo hi) := if_pos h

theorem readChunks_eq {s : ContentStore hash} {entries : List (ChunkRef D)} {pieces : List Bytes}
    (hchunks : List.Forall₂ (IsChunk s) entries pieces) (offset stop pos : ℕ) :
    readChunks s offset stop pos entries =
      .ok (window pieces.flatten (offset - pos) (stop - pos)) := by
  induction hchunks generalizing pos with
  | nil => simp [readChunks, window]
  | @cons e piece entries pieces he _ ih =>
    rw [readChunks, flatten_cons, he.2]
    by_cases hskip : pos + piece.length ≤ offset
    · rw [if_pos hskip, ih, window, window, drop_append, 
        drop_eq_nil_of_le (show piece.length ≤ offset - pos by omega), nil_append]
      rw [show offset - pos - piece.length = offset - (pos + piece.length) by omega,
        show stop - pos - (offset - pos) =
          stop - (pos + piece.length) - (offset - (pos + piece.length)) by omega]
    · rw [if_neg hskip]
      by_cases hstop : stop ≤ pos
      · rw [if_pos hstop, window, show stop - pos - (offset - pos) = 0 by omega, take_zero]
      · rw [if_neg hstop]
        simp only [he.1, ok_bind, ih]
        rw [slice_of_le (by omega), ok_bind, window, window, window,
          drop_append_of_le_length (by omega), take_append, length_drop,
          show offset - (pos + piece.length) = 0 by omega, drop_zero,
          show max offset pos - pos = offset - pos by omega]
        congr 2
        · rw [take_eq_take_iff, length_drop]
          omega
        · congr 1
          omega

theorem window_clamped {bytes : Bytes} (hlen : bytes.length < 2 ^ 64) (offset len : ℕ) :
    window bytes offset (min (saturatingAdd offset len) bytes.length) =
      (bytes.drop offset).take len := by
  rw [window, take_eq_take_iff, length_drop, saturatingAdd]
  omega

/-- **A part of the content** is the part of its bytes, as far as they go. -/
theorem contentReadRange_content (hc : Content h addr bytes) (offset len : ℕ) :
    contentReadRange h addr offset len = .ok ((bytes.drop offset).take len) := by
  obtain ⟨hlen, obj, hget, hobj⟩ := hc
  rw [contentReadRange, contentObject, hget]
  rcases hobj with hblob | ⟨entries, pieces, hlist, hchunks, hflat⟩
  · simp only [hblob, ok_bind]
    rw [slice_of_le (by omega)]
    by_cases hoff : bytes.length ≤ offset
    · rw [window, drop_eq_nil_of_le (by omega), drop_eq_nil_of_le hoff, take_nil, take_nil]
    · rw [min_eq_left (by omega : offset ≤ bytes.length), window_clamped hlen]
  · simp only [hlist, ok_bind]
    rw [UInt64.toNat_ofNat_of_lt' hlen, readChunks_eq hchunks, hflat, Nat.sub_zero, Nat.sub_zero,
      window_clamped hlen]
    split_ifs with hstop
    · rw [← window_clamped hlen, window, Nat.sub_eq_zero_of_le hstop, take_zero]
    · rfl

end Content

/-! ## Windows -/

section Windows

variable {h : Heap hash}
  {src : Option D} {old : Bytes}

/-- The content an edit starts from; a new file has none. -/
def Source (h : Heap hash) : Option D → Bytes → Prop
  | none, old => old = []
  | some addr, old => Content h addr old

theorem Source.mono {h' : Heap hash} (hgrown : h.Grown h') (hs : Source h src old) :
    Source h' src old := by
  cases src with
  | none => exact hs
  | some addr => exact Content.mono hgrown hs

theorem copyOld_eq (plan : EditPlan D) (hs : Source h plan.src old) (start stop : ℕ) {lo hi off : ℕ}
    (hlo : lo = min start old.length ∨ lo = start) (hhi : hi = min stop old.length)
    (hoff : off = lo - start) :
    copyOld h plan lo hi off (List.replicate (stop - start) 0) =
      .ok (resize (old.drop start) (stop - start) 0) := by
  rw [copyOld]
  cases hsrc : plan.src with
  | none =>
    rw [hsrc] at hs
    obtain rfl : old = [] := hs
    rw [drop_nil, resize_nil]
  | some addr =>
    rw [hsrc] at hs
    by_cases hlt : lo < hi
    · obtain rfl : lo = start := by omega
      obtain rfl : off = 0 := by omega
      simp only [if_pos hlt, contentReadRange_content hs, ok_bind]
      rw [splice_replicate, resize_take]
      · rw [length_drop]
        omega
      · omega
      · rw [length_take]
        omega
    · simp only [if_neg hlt]
      by_cases hempty : stop - start = 0
      · rw [hempty, resize, take_zero, Nat.zero_sub, nil_append]
      · rw [drop_eq_nil_of_le (by omega), resize_nil]

/-- **A window of the edit** is a window of the plain edit. -/
theorem editWindow_eq (hs : Source h src old) (edit : Edit) {start stop : ℕ}
    (hstop : stop ≤ (edit.apply old).length) :
    editWindow h (edit.plan src old.length) start stop =
      .ok (window (edit.apply old) start stop) := by
  rw [Edit.length_apply src] at hstop
  cases edit with
  | write offset data =>
    have hcopy := copyOld_eq (.write src old.length offset data) hs start stop (.inl rfl) rfl rfl
    change stop ≤ max old.length (offset + data.length) at hstop
    simp only [Edit.plan, editWindow, EditPlan.write] at hcopy ⊢
    rw [hcopy, ok_bind, Edit.apply, window_splice (by rw [length_resize]; omega)
      (by rw [length_resize]; omega), window_resize hstop]
    split_ifs <;> rfl
  | truncate size =>
    have hcopy := copyOld_eq (.truncate src old.length size) hs start stop (.inr rfl) rfl
      (Nat.sub_self start).symm
    change stop ≤ size at hstop
    rw [Edit.apply, window_resize hstop]
    exact hcopy

theorem windowEnd_of_le {newSize pos : ℕ} (h : newSize ≤ 2 ^ 64 - blockSize) (hpos : pos < newSize) :
    windowEnd newSize pos = .ok (min (pos + blockSize) newSize) := by
  exact if_pos (by omega)

omit [LinearOrder D] [ToString D] in
theorem le_windowCount (plan : EditPlan D) : plan.newSize ≤ windowCount plan * blockSize := by
  have hblock : 0 < blockSize := by decide
  rw [windowCount, add_mul, one_mul]
  have := div_add_mod plan.newSize blockSize
  have := mod_lt plan.newSize hblock
  rw [mul_comm]
  omega

theorem readWindows_eq (hs : Source h src old) (edit : Edit)
    (hsize : (edit.apply old).length ≤ 2 ^ 64 - blockSize) {fuel pos : ℕ}
    (hfuel : (edit.apply old).length ≤ pos + fuel * blockSize) :
    readWindows h (edit.plan src old.length) fuel pos = .ok ((edit.apply old).drop pos) := by
  induction fuel generalizing pos with
  | zero => rw [readWindows, drop_eq_nil_of_le (by omega)]
  | succ fuel ih =>
    rw [readWindows, ← Edit.length_apply]
    split_ifs with hpos
    · rw [windowEnd_of_le hsize hpos, ok_bind, editWindow_eq hs edit (min_le_right _ _), ok_bind,
        ih (by rw [succ_mul] at hfuel; omega), ok_bind, window_append_drop (by omega)]
    · rw [drop_eq_nil_of_le (by omega)]

end Windows

/-! ## Streams -/

section Stream

variable {h : Heap hash}
  {src : Option D} {old : Bytes}

def chunkRefOf (hash : Stored D → D) (piece : Bytes) : ChunkRef D :=
  ⟨hash (.object (.blob piece)), UInt64.ofNat piece.length⟩

def Heap.withChunks (h : Heap hash) (pieces : List Bytes) : Heap hash :=
  { h with store := pieces.foldl (fun s piece => s.put (.object (.blob piece))) h.store }

/-- The heap with an object as the content of an address. -/
def Heap.withContent (h : Heap hash) (addr : D) (o : Object D) : Heap hash :=
  ⟨h.store.put (.object o), h.content.insert addr (hash (.object o))⟩

omit [ToString D] in
theorem Heap.withChunks_append (h : Heap hash) (pieces more : List Bytes) :
    h.withChunks (pieces ++ more) = (h.withChunks pieces).withChunks more := by
  rw [withChunks, foldl_append]
  rfl

omit [ToString D] in
theorem Heap.grown_withChunks (h : Heap hash) (pieces : List Bytes) : h.Grown (h.withChunks pieces) := by
  refine ⟨?_, rfl⟩
  induction pieces generalizing h with
  | nil => exact le_rfl
  | cons piece pieces ih =>
    exact le_trans (ContentStore.le_put _ _) (ih (h.withChunks [piece]))

omit [ToString D] in
theorem exec_storeChunks (pieces : List Bytes) (h : Heap hash) :
    exec (storeChunks pieces) h = (.ok (pieces.map (chunkRefOf hash)), h.withChunks pieces) := by
  induction pieces generalizing h with
  | nil => rfl
  | cons piece pieces ih => exact exec_mapM_cons rfl (ih (h.withChunks [piece]))

omit [ToString D] in
theorem exec_indexContent (addr : D) (o : Object D) (h : Heap hash) :
    exec (indexContent addr o) h = (.ok (), h.withContent addr o) := rfl

/-- **A stream of windows** stores the chunks of the plain edit, up to the last ones. -/
theorem exec_streamWindows (hs : Source h src old) (edit : Edit)
    (hsize : (edit.apply old).length ≤ 2 ^ 64 - blockSize) {fuel : ℕ} (pos : ℕ)
    (hfuel : (edit.apply old).length ≤ pos + fuel * blockSize) (buf : Bytes)
    (entries : List (ChunkRef D)) (hashed : Bytes) :
    ∃ pieces rest, exec (streamWindows (edit.plan src old.length) fuel pos buf entries hashed) h =
        (.ok (entries ++ pieces.map (chunkRefOf hash), hashed ++ (edit.apply old).drop pos, rest),
          h.withChunks pieces) ∧
      pieces ++ cdc.chunks rest = cdc.chunks (buf ++ (edit.apply old).drop pos) := by
  induction fuel generalizing h pos buf entries hashed with
  | zero =>
    refine ⟨[], buf, ?_, ?_⟩
    · rw [streamWindows, drop_eq_nil_of_le (by omega), map_nil, append_nil, append_nil]
      rfl
    · rw [drop_eq_nil_of_le (by omega), append_nil, nil_append]
  | succ fuel ih =>
    rw [streamWindows, ← Edit.length_apply]
    by_cases hpos : pos < (edit.apply old).length
    · have hnext := min_le_right (pos + blockSize) (edit.apply old).length
      rw [if_pos hpos, exec_lift_bind_of_ok (windowEnd_of_le hsize hpos), exec_get_bind,
        exec_lift_bind_of_ok (editWindow_eq hs edit hnext)]
      generalize hstop : min (pos + blockSize) (edit.apply old).length = stop at hnext ⊢
      generalize hw : window (edit.apply old) pos stop = w
      rw [exec_bind_of_ok (exec_storeChunks _ _)]
      have hgrown := h.grown_withChunks (cdc.push maxSize buf w).1
      obtain ⟨pieces, rest, hrun, hchunks⟩ := ih (hs.mono hgrown) stop
        (by rw [succ_mul] at hfuel; omega) (cdc.push maxSize buf w).2
        (entries ++ (cdc.push maxSize buf w).1.map (chunkRefOf hash)) (hashed ++ w)
      have hsplit : w ++ (edit.apply old).drop stop = (edit.apply old).drop pos := by
        rw [← hw, window_append_drop (by omega)]
      refine ⟨(cdc.push maxSize buf w).1 ++ pieces, rest, ?_, ?_⟩
      · rw [hrun, map_append, h.withChunks_append, append_assoc, append_assoc, hsplit]
      · rw [append_assoc, hchunks, Cut.chunks_push settled_cdc, hsplit]
    · refine ⟨[], buf, ?_, ?_⟩
      · rw [if_neg hpos, drop_eq_nil_of_le (by omega), map_nil, append_nil, append_nil]
        rfl
      · rw [drop_eq_nil_of_le (by omega), append_nil, nil_append]

theorem next_block {block n : ℕ} (hfit : block * blockSize + blockSize < 2 ^ 64)
    (hsize : 2 ^ 64 - blockSize < n) :
    min (block * blockSize + blockSize) n = (block + 1) * blockSize ∧
      (block + 1) * blockSize ≤ 2 ^ 64 - blockSize := by
  simp only [show blockSize = 524288 from rfl] at *
  omega

theorem exec_streamWindows_error (hs : Source h src old) (edit : Edit)
    (hsize : 2 ^ 64 - blockSize < (edit.apply old).length) (fuel block : ℕ)
    (hpos : block * blockSize ≤ 2 ^ 64 - blockSize)
    (hfuel : (edit.apply old).length ≤ block * blockSize + fuel * blockSize) (buf : Bytes)
    (entries : List (ChunkRef D)) (hashed : Bytes) :
    ∃ pieces, exec (streamWindows (edit.plan src old.length) fuel (block * blockSize) buf entries
      hashed) h = (.error overflow, h.withChunks pieces) := by
  induction fuel generalizing h block buf entries hashed with
  | zero => omega
  | succ fuel ih =>
    rw [streamWindows, ← Edit.length_apply, if_pos (by omega)]
    by_cases hfit : block * blockSize + blockSize < 2 ^ 64
    · obtain ⟨hnext, hle⟩ := next_block hfit hsize
      have hstop : windowEnd (edit.apply old).length (block * blockSize) =
          .ok ((block + 1) * blockSize) := by rw [windowEnd, if_pos hfit, hnext]
      rw [exec_lift_bind_of_ok hstop, exec_get_bind,
        exec_lift_bind_of_ok (editWindow_eq hs edit (by omega)),
        exec_bind_of_ok (exec_storeChunks _ _)]
      obtain ⟨pieces, hrun⟩ := ih (hs.mono (h.grown_withChunks _)) (block + 1) hle
        (by rw [add_mul] at hfuel ⊢; omega) _ _ _
      exact ⟨_, hrun.trans (by rw [h.withChunks_append])⟩
    · have hstop : windowEnd (edit.apply old).length (block * blockSize) = .error overflow :=
        if_neg hfit
      exact ⟨[], exec_lift_bind_of_error hstop _ _⟩

end Stream

/-! ## Edits and stores -/

section Agree

variable {env : Env hash}
  {h : Heap hash} {src : Option D} {old : Bytes}

def Heap.stored (env : Env hash) (h : Heap hash) (bytes : Bytes) : Heap hash :=
  if bytes.length ≤ chunkThreshold then h.withContent (env.contentAddress bytes) (.blob bytes)
  else (h.withChunks (env.chunk bytes)).withContent (env.contentAddress bytes)
    (.chunkList (UInt64.ofNat bytes.length) ((env.chunk bytes).map (chunkRefOf hash)))

omit [ToString D] in
theorem exec_storeContent (bytes : Bytes) (h : Heap hash) :
    exec (storeContent env bytes) h = (.ok (env.contentAddress bytes), h.stored env bytes) := by
  rw [storeContent, Heap.stored]
  split_ifs with hlen
  · rfl
  · exact exec_bind_of_ok (exec_storeChunks (env.chunk bytes) h) _

theorem exec_buildEditedContent (hchunk : env.chunk = chunk) (hs : Source h src old) (edit : Edit)
    (hsize : (edit.apply old).length ≤ 2 ^ 64 - blockSize) :
    exec (buildEditedContent env (edit.plan src old.length)) h =
      (.ok (env.contentAddress (edit.apply old), (edit.apply old).length),
        h.stored env (edit.apply old)) := by
  have hfuel := le_windowCount (edit.plan src old.length)
  rw [← Edit.length_apply, ← zero_add (_ * _)] at hfuel
  rw [buildEditedContent, Heap.stored, ← Edit.length_apply]
  split_ifs with hlen
  · rw [exec_get_bind, exec_lift_bind, readWindows_eq hs edit hsize hfuel]
    rfl
  · obtain ⟨pieces, rest, hrun, hchunks⟩ := exec_streamWindows hs edit hsize 0 hfuel [] [] []
    rw [exec_bind_of_ok hrun]
    rw [exec_bind_of_ok (exec_storeChunks _ _), exec_bind_of_ok (exec_indexContent _ _ _), exec_pure,
      nil_append, nil_append, drop_zero, ← map_append, ← Heap.withChunks_append,
      hchunks, drop_zero, hchunk]
    rfl

variable (env) in
theorem exec_buildEditedContent_error (hs : Source h src old) (edit : Edit)
    (hsize : 2 ^ 64 - blockSize < (edit.apply old).length) :
    ∃ pieces, exec (buildEditedContent env (edit.plan src old.length)) h =
      (.error overflow, h.withChunks pieces) := by
  have hfuel := le_windowCount (edit.plan src old.length)
  have hbig : ¬(edit.apply old).length ≤ chunkThreshold := by
    have : 2 ^ 64 - blockSize = 18446744073709027328 := rfl
    have : chunkThreshold = 524288 := rfl
    omega
  rw [buildEditedContent, ← Edit.length_apply, if_neg hbig]
  obtain ⟨pieces, hrun⟩ := exec_streamWindows_error hs edit hsize (windowCount (edit.plan src old.length)) 0 (by omega)
    (by rw [Edit.length_apply src]; omega) [] [] []
  rw [zero_mul] at hrun
  exact ⟨pieces, exec_bind_of_error hrun _⟩

theorem Heap.getObject_withChunks (hinj : Function.Injective hash) {pieces : List Bytes}
    {piece : Bytes} (h : Heap hash) (hp : piece ∈ pieces) :
    getObject (h.withChunks pieces).store (hash (.object (.blob piece))) = .ok (.blob piece) := by
  induction pieces generalizing h with
  | nil => cases hp
  | cons first pieces ih =>
    rcases mem_cons.mp hp with rfl | hp
    · exact getObject_mono ((h.withChunks [piece]).grown_withChunks pieces).1
        (getObject_put hinj h.store rfl)
    · exact ih (h.withChunks [first]) hp

variable {bytes : Bytes}

/-- **Stored content** is content. -/
theorem content_stored (hinj : Function.Injective hash) (hchunk : env.chunk = chunk)
    (h : Heap hash) (hlen : bytes.length < 2 ^ 64) :
    Content (h.stored env bytes) (env.contentAddress bytes) bytes := by
  refine ⟨hlen, ?_⟩
  rw [Heap.stored, hchunk]
  split_ifs with hsmall
  · exact ⟨_, (get_insert ..).trans (if_pos rfl), .inl (getObject_put hinj _ rfl)⟩
  · refine ⟨_, (get_insert ..).trans (if_pos rfl),
      .inr ⟨_, chunk bytes, getObject_put hinj _ rfl, ?_, Cut.flatten_chunks bytes⟩⟩
    rw [forall₂_map_left_iff, forall₂_same]
    intro piece hp
    have hle : piece.length ≤ bytes.length := by
      rw [← Cut.flatten_chunks (c := cdc) bytes]
      exact (sublist_flatten_of_mem hp).length_le
    exact ⟨getObject_mono (ContentStore.le_put _ _) (h.getObject_withChunks hinj hp),
      UInt64.toNat_ofNat_of_lt' (hle.trans_lt hlen)⟩

/-- All content is whole, and at the address of its bytes. -/
def Heap.Intact (env : Env hash) (h : Heap hash) : Prop :=
  ∀ addr obj, h.content.get addr = some obj →
    ∃ bytes, Content h addr bytes ∧ env.contentAddress bytes = addr

variable {addr : D}

theorem Content.unique {bytes' : Bytes} (hc : Content h addr bytes) (hc' : Content h addr bytes') :
    bytes = bytes' :=
  Except.ok.inj ((loadContent_content hc).symm.trans (loadContent_content hc'))

theorem Heap.Intact.address (hi : h.Intact env) (hc : Content h addr bytes) :
    env.contentAddress bytes = addr := by
  obtain ⟨-, obj, hget, -⟩ := id hc
  obtain ⟨bytes', hc', haddr⟩ := hi addr obj hget
  rw [hc.unique hc', haddr]

theorem Heap.Intact.grown {h' : Heap hash} (hi : h.Intact env) (hgrown : h.Grown h') :
    h'.Intact env := by
  intro addr obj hget
  obtain ⟨bytes, hc, haddr⟩ := hi addr obj (hgrown.2 ▸ hget)
  exact ⟨bytes, hc.mono hgrown, haddr⟩

omit [ToString D] in
theorem Heap.stored_spec (env : Env hash) (h : Heap hash) (bytes : Bytes) :
    h.store ≤ (h.stored env bytes).store ∧
      ∃ obj, (h.stored env bytes).content = h.content.insert (env.contentAddress bytes) obj := by
  rw [Heap.stored]
  split_ifs
  · exact ⟨ContentStore.le_put _ _, _, rfl⟩
  · exact ⟨(h.grown_withChunks _).1.trans (ContentStore.le_put _ _), _, rfl⟩

theorem Content.stored (hinj : Function.Injective hash) (hchunk : env.chunk = chunk)
    (hca : Function.Injective env.contentAddress) {old bytes : Bytes}
    (hc : Content h (env.contentAddress old) old) (hlen : bytes.length < 2 ^ 64) :
    Content (h.stored env bytes) (env.contentAddress old) old := by
  obtain ⟨hle, obj, hobj⟩ := h.stored_spec env bytes
  by_cases heq : old = bytes
  · subst heq
    exact content_stored hinj hchunk h hlen
  · have hget : (h.stored env bytes).content.get (env.contentAddress old) =
        h.content.get (env.contentAddress old) := by
      rw [hobj, get_insert, if_neg fun he => heq (hca he).symm]
    have hgrown : h.Grown { (h.stored env bytes) with content := h.content } := ⟨hle, rfl⟩
    obtain ⟨hold, obj', hobj', hcase⟩ := hc.mono hgrown
    exact ⟨hold, obj', hget.trans hobj', hcase⟩

theorem Heap.Intact.stored (hinj : Function.Injective hash) (hchunk : env.chunk = chunk)
    (hca : Function.Injective env.contentAddress) (hi : h.Intact env) {bytes : Bytes}
    (hlen : bytes.length < 2 ^ 64) : (h.stored env bytes).Intact env := by
  intro addr obj' hget
  obtain ⟨-, obj, hobj⟩ := h.stored_spec env bytes
  rw [hobj, get_insert] at hget
  split_ifs at hget with haddr
  · exact ⟨bytes, haddr ▸ content_stored hinj hchunk h hlen, haddr⟩
  · obtain ⟨old, hc, rfl⟩ := hi addr obj' hget
    exact ⟨old, hc.stored hinj hchunk hca hlen, rfl⟩

theorem contentSize_content (hc : Content h addr bytes) :
    contentSize h addr = .ok bytes.length := by
  obtain ⟨hlen, obj, hget, hobj⟩ := hc
  rw [contentSize, contentObject, hget]
  rcases hobj with hblob | ⟨entries, pieces, hlist, -, -⟩
  · simp only [hblob, ok_bind]
  · simp only [hlist, ok_bind]
    rw [UInt64.toNat_ofNat_of_lt' hlen]

/-- **An edit is a plain edit that is stored**, where the end of every window fits 64 bits. -/
theorem edits_agree_iff (hchunk : env.chunk = chunk) (hs : Source h src old) (edit : Edit) :
    (exec (buildEditedContent env (edit.plan src old.length)) h =
        ((exec (storeContent env (edit.apply old)) h).1.map (·, (edit.apply old).length),
          (exec (storeContent env (edit.apply old)) h).2) ↔
      (edit.apply old).length ≤ 2 ^ 64 - blockSize) ∧
    ∀ addr bytes, Content h addr bytes → ∀ offset len, contentReadRange h addr offset len =
        (loadContent h addr).map fun bytes => (bytes.drop offset).take len := by
  rw [exec_storeContent]
  refine ⟨⟨fun heq => ?_, exec_buildEditedContent hchunk hs edit⟩, fun addr bytes hc offset len => ?_⟩
  · by_contra hbig
    obtain ⟨pieces, herr⟩ := exec_buildEditedContent_error env hs edit (not_le.mp hbig)
    rw [heq] at herr
    cases (Prod.mk.inj herr).1
  · rw [contentReadRange_content hc, loadContent_content hc]
    rfl

end Agree

/-! ## Samples -/

namespace Sample

/-- The plain environment with the chunks of the source. -/
def cdcEnv : Env freeHash := { plainEnv with chunk := chunk }

def three : Bytes := [1, 2, 3]

def threeAddr : FreeDigest := cdcEnv.contentAddress three

def threeBytes : Heap freeHash := Heap.stored cdcEnv ⟨ContentStore.empty, SortedMap.empty⟩ three

theorem source_threeBytes : Source threeBytes (some threeAddr) three :=
  content_stored freeHash_injective rfl _ (by decide)

def gap : Edit := .write 5 [7]

theorem edits_agree_gap : gap.apply three = [1, 2, 3, 0, 0, 7] ∧
    exec (buildEditedContent cdcEnv (gap.plan (some threeAddr) three.length)) threeBytes =
      ((exec (storeContent cdcEnv (gap.apply three)) threeBytes).1.map (·, (gap.apply three).length),
        (exec (storeContent cdcEnv (gap.apply three)) threeBytes).2) :=
  ⟨by decide, (edits_agree_iff rfl source_threeBytes gap).1.mpr (by decide)⟩

def longest : Edit := .truncate (2 ^ 64 - 1)

/-- **A resize to the largest size fails**, though the bytes can be stored. -/
theorem resize_overflow :
    (exec (buildEditedContent cdcEnv (longest.plan (some threeAddr) three.length)) threeBytes).1 =
      .error overflow ∧
    (exec (storeContent cdcEnv (longest.apply three)) threeBytes).1 =
      .ok (cdcEnv.contentAddress (longest.apply three)) := by
  constructor
  · have hlong : 2 ^ 64 - blockSize < (longest.apply three).length := by
      rw [longest, Edit.apply, length_resize]
      decide
    obtain ⟨pieces, herr⟩ := exec_buildEditedContent_error cdcEnv source_threeBytes longest hlong
    exact congrArg Prod.fst herr
  · rw [exec_storeContent]

end Sample

end UldrenLoom.Vcs
