import Mathlib

/-!
# Cutting a sequence from the front

A cut function says where the first chunk of a sequence ends. The chunks of a whole sequence, and the
chunks of a stream that is given in blocks and buffered until the next cut is settled.

* **`chunks_pushAll`**: a stream makes the chunks of the whole.
* **`window_splice`**, **`window_resize`**: what a part of a spliced or resized buffer is.
-/

namespace Cutter

open List

variable {α : Type}

/-- Where the first chunk ends. -/
structure Cut (α : Type) where
  cutAt : List α → ℕ
  pos : ∀ {xs}, xs ≠ [] → 0 < cutAt xs
  le : ∀ xs, cutAt xs ≤ xs.length

namespace Cut

variable (c : Cut α)

/-- Cut as long as `fuel` lasts. -/
def cutAll : (fuel : ℕ) → List α → List (List α)
  | 0, _ => []
  | fuel + 1, xs =>
    match xs with
    | [] => []
    | xs => xs.take (c.cutAt xs) :: cutAll fuel (xs.drop (c.cutAt xs))

def chunks (xs : List α) : List (List α) := c.cutAll xs.length xs

variable {c} {fuel : ℕ} {xs : List α}

theorem cutAll_cons (h : xs ≠ []) :
    c.cutAll (fuel + 1) xs = xs.take (c.cutAt xs) :: c.cutAll fuel (xs.drop (c.cutAt xs)) := by
  cases xs with
  | nil => exact absurd rfl h
  | cons x xs => rfl

theorem length_drop_lt (h : xs ≠ []) : (xs.drop (c.cutAt xs)).length < xs.length := by
  have := c.pos h
  have := length_pos_of_ne_nil h
  rw [length_drop]
  omega

theorem cutAll_eq {fuel' : ℕ} (h : xs.length ≤ fuel) (h' : xs.length ≤ fuel') :
    c.cutAll fuel xs = c.cutAll fuel' xs := by
  induction fuel generalizing fuel' xs with
  | zero =>
    obtain rfl := length_eq_zero_iff.mp (Nat.le_zero.mp h)
    cases fuel' <;> rfl
  | succ fuel ih =>
    by_cases hx : xs = []
    · subst hx
      cases fuel' <;> rfl
    · have hlt := length_drop_lt (c := c) hx
      cases fuel' with
      | zero => exact absurd (length_eq_zero_iff.mp (Nat.le_zero.mp h')) hx
      | succ fuel' =>
        rw [cutAll_cons hx, cutAll_cons hx]
        exact congrArg _ (ih (by omega) (by omega))

theorem chunks_of_ne_nil (h : xs ≠ []) :
    c.chunks xs = xs.take (c.cutAt xs) :: c.chunks (xs.drop (c.cutAt xs)) := by
  have hlt := length_drop_lt (c := c) h
  rw [chunks, chunks, cutAll_eq le_rfl (show xs.length ≤ (xs.length - 1) + 1 by omega),
    cutAll_cons h, cutAll_eq (by omega) le_rfl]

/-- **The chunks make up the sequence.** -/
theorem flatten_chunks (xs : List α) : (c.chunks xs).flatten = xs := by
  induction hn : xs.length using Nat.strong_induction_on generalizing xs with
  | _ n ih =>
    by_cases h : xs = []
    · rw [h]
      rfl
    · rw [chunks_of_ne_nil h, flatten_cons, ih _ (hn ▸ length_drop_lt h) _ rfl, take_append_drop]

section Bounds

variable (c) (lo hi : ℕ)

/-- A chunk has at most `hi` elements, and at least `lo` where more follows. -/
def Within : Prop :=
  ∀ xs, xs ≠ [] → c.cutAt xs ≤ hi ∧ (c.cutAt xs < xs.length → lo ≤ c.cutAt xs)

variable {c lo hi}

theorem length_le_of_mem (h : c.Within lo hi) {xs x : List α} (hx : x ∈ c.chunks xs) :
    x.length ≤ hi := by
  induction hn : xs.length using Nat.strong_induction_on generalizing xs with
  | _ n ih =>
    by_cases hne : xs = []
    · rw [hne] at hx
      cases hx
    · rw [chunks_of_ne_nil hne] at hx
      rcases mem_cons.mp hx with rfl | hx
      · exact le_trans (length_take_le _ _) (h xs hne).1
      · exact ih _ (hn ▸ length_drop_lt hne) hx rfl

theorem le_length_of_mem (h : c.Within lo hi) {xs x : List α} (hx : x ∈ (c.chunks xs).dropLast) :
    lo ≤ x.length := by
  induction hn : xs.length using Nat.strong_induction_on generalizing xs with
  | _ n ih =>
    by_cases hne : xs = []
    · rw [hne] at hx
      cases hx
    · rw [chunks_of_ne_nil hne] at hx
      by_cases hrest : xs.drop (c.cutAt xs) = []
      · rw [hrest] at hx
        cases hx
      · have hlt : c.cutAt xs < xs.length := by
          by_contra hge
          exact hrest (drop_eq_nil_of_le (not_lt.mp hge))
        rw [dropLast_cons_of_ne_nil (by rw [chunks_of_ne_nil hrest]; simp)] at hx
        rcases mem_cons.mp hx with rfl | hx
        · rw [length_take, min_eq_left (c.le xs)]
          exact (h xs hne).2 hlt
        · exact ih _ (hn ▸ length_drop_lt hne) hx rfl

end Bounds

/-! ## Streams -/

variable (c) (max : ℕ)

/-- Emit the chunks whose ends are settled: the chunks, and what stays in the buffer. -/
def settle : (fuel : ℕ) → List α → List (List α) × List α
  | 0, buf => ([], buf)
  | fuel + 1, buf =>
    if buf = [] then ([], [])
    else if c.cutAt buf < buf.length then
      let r := settle fuel (buf.drop (c.cutAt buf))
      (buf.take (c.cutAt buf) :: r.1, r.2)
    else if max ≤ buf.length then ([buf], [])
    else ([], buf)

def push (buf data : List α) : List (List α) × List α :=
  c.settle max (buf ++ data).length (buf ++ data)

def pushAll : (buf : List α) → List (List α) → List (List α) × List α
  | buf, [] => ([], buf)
  | buf, block :: blocks =>
    let r := c.push max buf block
    (r.1 ++ (pushAll r.2 blocks).1, (pushAll r.2 blocks).2)

/-- A cut inside the buffer, or of a buffer of length `max`, does not depend on what follows. -/
def Settled : Prop := ∀ buf more, buf ≠ [] → (c.cutAt buf < buf.length ∨ max ≤ buf.length) →
  c.cutAt (buf ++ more) = c.cutAt buf

variable {c max}

theorem chunks_settle (hc : c.Settled max) (fuel : ℕ) (buf more : List α) : c.chunks (buf ++ more) =
      (c.settle max fuel buf).1 ++ c.chunks ((c.settle max fuel buf).2 ++ more) := by
  induction fuel generalizing buf with
  | zero => rfl
  | succ fuel ih =>
    rw [settle]
    split_ifs with hnil hlt hmax
    · rw [hnil]
      rfl
    · have hcut := hc buf more hnil (.inl hlt)
      rw [chunks_of_ne_nil (by simp [hnil]), hcut, take_append_of_le_length (c.le buf),
        drop_append_of_le_length (c.le buf), ih]
      rfl
    · have hcut := hc buf more hnil (.inr hmax)
      have hlen : c.cutAt buf = buf.length := le_antisymm (c.le buf) (not_lt.mp hlt)
      rw [chunks_of_ne_nil (by simp [hnil]), hcut, hlen, take_left, drop_left]
      rfl
    · rfl

/-- **Pushing a block keeps the chunks of the whole.** -/
theorem chunks_push (hc : c.Settled max) (buf data more : List α) :
    (c.push max buf data).1 ++ c.chunks ((c.push max buf data).2 ++ more) =
      c.chunks (buf ++ (data ++ more)) := by
  rw [push, ← chunks_settle hc, append_assoc]

theorem chunks_pushAll (hc : c.Settled max) (buf : List α) (blocks : List (List α)) :
    (c.pushAll max buf blocks).1 ++ c.chunks (c.pushAll max buf blocks).2 =
      c.chunks (buf ++ blocks.flatten) := by
  induction blocks generalizing buf with
  | nil => rw [pushAll, nil_append, flatten_nil, append_nil]
  | cons block blocks ih =>
    rw [pushAll, append_assoc, ih, chunks_push hc, flatten_cons]

theorem length_settle_lt (hmax : 0 < max) {buf : List α} (h : buf.length ≤ fuel) :
    (c.settle max fuel buf).2.length < max := by
  induction fuel generalizing buf with
  | zero => exact lt_of_le_of_lt h hmax
  | succ fuel ih =>
    rw [settle]
    split_ifs with hnil hlt hlong
    · exact hmax
    · have hdrop := length_drop_lt (c := c) hnil
      exact ih (by omega)
    · exact hmax
    · exact not_le.mp hlong

theorem length_pushAll_lt (hmax : 0 < max) {buf : List α} (hbuf : buf.length < max)
    (blocks : List (List α)) : (c.pushAll max buf blocks).2.length < max := by
  induction blocks generalizing buf with
  | nil => exact hbuf
  | cons block blocks ih => exact ih (length_settle_lt hmax le_rfl)

end Cut

/-! ## Copying into a buffer -/

def splice (buf : List α) (off : ℕ) (src : List α) : List α :=
  buf.take off ++ src ++ buf.drop (off + src.length)

variable {buf src xs : List α} {off stop start n : ℕ}

theorem length_splice (h : off + src.length ≤ buf.length) :
    (splice buf off src).length = buf.length := by
  simp only [splice, length_append, length_take, length_drop]
  omega

theorem getElem?_splice (h : off + src.length ≤ buf.length) (i : ℕ) : (splice buf off src)[i]? =
      if off ≤ i ∧ i < off + src.length then src[i - off]? else buf[i]? := by
  have hoff : (buf.take off).length = off := by rw [length_take]; omega
  rw [splice, append_assoc, List.getElem?_append, hoff]
  by_cases h1 : i < off
  · rw [if_pos h1, if_neg (by omega), List.getElem?_take_of_lt h1]
  · rw [if_neg h1, List.getElem?_append]
    by_cases h2 : i - off < src.length
    · rw [if_pos h2, if_pos (by omega)]
    · rw [if_neg h2, if_neg (by omega), List.getElem?_drop]
      congr 1
      omega

def window (xs : List α) (start stop : ℕ) : List α := (xs.drop start).take (stop - start)

theorem getElem?_window (xs : List α) (start stop i : ℕ) :
    (window xs start stop)[i]? = if i < stop - start then xs[start + i]? else none := by
  rw [window, List.getElem?_take, List.getElem?_drop]

theorem length_window (start : ℕ) (h : stop ≤ xs.length) :
    (window xs start stop).length = stop - start := by
  rw [window, length_take, length_drop]
  omega

theorem window_append_drop (h : start ≤ stop) :
    window xs start stop ++ xs.drop stop = xs.drop start := by
  have hdrop : xs.drop stop = (xs.drop start).drop (stop - start) := by
    rw [drop_drop]
    congr 1
    omega
  rw [window, hdrop, take_append_drop]

/-- **A part of a copy** is a copy of the part that it holds. -/
theorem window_splice (h : off + src.length ≤ buf.length) (hstop : stop ≤ buf.length) :
    window (splice buf off src) start stop = if max start off < min stop (off + src.length) then
        splice (window buf start stop) (max start off - start)
          ((src.drop (max start off - off)).take (min stop (off + src.length) - max start off))
      else window buf start stop := by
  apply ext_getElem?
  intro i
  have hlen := length_window start hstop
  rw [getElem?_window, getElem?_splice h]
  by_cases hc : max start off < min stop (off + src.length)
  · rw [if_pos hc]
    have hsrc : ((src.drop (max start off - off)).take
        (min stop (off + src.length) - max start off)).length =
        min stop (off + src.length) - max start off := by
      rw [length_take, length_drop]
      omega
    rw [getElem?_splice (by rw [hsrc, hlen]; omega), hsrc, getElem?_window, List.getElem?_take,
      List.getElem?_drop]
    by_cases hi : i < stop - start
    · rw [if_pos hi, if_pos hi]
      by_cases hin : off ≤ start + i ∧ start + i < off + src.length
      · rw [if_pos hin, if_pos (by omega), if_pos (by omega)]
        congr 1
        omega
      · rw [if_neg hin, if_neg (by omega)]
    · rw [if_neg hi, if_neg hi, if_neg (by omega)]
  · rw [if_neg hc, getElem?_window]
    by_cases hi : i < stop - start
    · rw [if_pos hi, if_pos hi, if_neg (by omega)]
    · rw [if_neg hi, if_neg hi]

/-- Cut a sequence at a length, or extend it to the length. -/
def resize (xs : List α) (n : ℕ) (a : α) : List α := xs.take n ++ List.replicate (n - xs.length) a

@[simp] theorem length_resize (xs : List α) (n : ℕ) (a : α) : (resize xs n a).length = n := by
  rw [resize, length_append, length_take, length_replicate]
  omega

theorem resize_nil (n : ℕ) (a : α) : resize [] n a = List.replicate n a := by
  rw [resize, take_nil, nil_append, length_nil, Nat.sub_zero]

theorem window_resize {a : α} (h : stop ≤ n) :
    window (resize xs n a) start stop = resize (xs.drop start) (stop - start) a := by
  apply ext_getElem?
  intro i
  rw [getElem?_window, resize, resize, List.getElem?_append, List.getElem?_append, length_take,
    length_take, length_drop, List.getElem?_take, List.getElem?_take, List.getElem?_drop,
    List.getElem?_replicate, List.getElem?_replicate]
  split_ifs <;> first | rfl | omega

theorem splice_replicate (a : α) (h : xs.length ≤ n) :
    splice (List.replicate n a) 0 xs = resize xs n a := by
  rw [splice, resize, take_zero, nil_append, take_of_length_le h, Nat.zero_add, drop_replicate]

theorem resize_take (xs : List α) {m : ℕ} (a : α) (h : min m xs.length = min n xs.length)
    (hm : m ≤ n) : resize (xs.take m) n a = resize xs n a := by
  have htake : xs.take m = xs.take n := by
    rw [take_eq_take_iff]
    omega
  rw [resize, resize, take_take, min_eq_right hm, htake, length_take]
  congr 2
  omega

end Cutter
