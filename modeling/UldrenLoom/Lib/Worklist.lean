import Mathlib

/-!
# Worklists

A search that takes the front of a queue, skips what it has seen, and otherwise expands it: the
expansion names what to queue at the back and what to count as seen besides.

* **`run_invariant`**: what skipping and expanding preserve holds of what the search has seen.
* **`run_total`**: with one unit of fuel for every element that can be expanded, the search ends.
* **`iterate_card`**: a growing set inside a finite one is stable after as many rounds as that has
  elements.
-/

namespace Worklist

variable {D ε : Type} [DecidableEq D] (expand : D → Except ε (List D × List D)) (stuck : ε)

/-- Search from a queue; `stuck` is the error of a search out of fuel. -/
def run : (fuel : ℕ) → (seen queue : List D) → Except ε (List D)
  | 0, seen, queue =>
    match queue.dropWhile (· ∈ seen) with
    | [] => .ok seen
    | d :: _ => expand d >>= fun _ => .error stuck
  | fuel + 1, seen, queue =>
    match queue.dropWhile (· ∈ seen) with
    | [] => .ok seen
    | d :: rest => expand d >>= fun r => run fuel (r.2 ++ d :: seen) (rest ++ r.1)

variable {expand stuck} {P : List D → List D → Prop} {seen queue : List D}

theorem skip_invariant (skip : ∀ d q, d ∈ seen → P seen (d :: q) → P seen q) (h : P seen queue) :
    P seen (queue.dropWhile (· ∈ seen)) := by
  induction queue with
  | nil => exact h
  | cons d q ih =>
    by_cases hd : d ∈ seen
    · rw [List.dropWhile_cons_of_pos (by simpa using hd)]
      exact ih (skip d q hd h)
    · rw [List.dropWhile_cons_of_neg (by simpa using hd)]
      exact h

theorem notMem_of_dropWhile {rest : List D} {d : D} (h : queue.dropWhile (· ∈ seen) = d :: rest) :
    d ∉ seen := by
  have hd := List.head?_dropWhile_not (fun x => decide (x ∈ seen)) queue
  rw [h] at hd
  simpa using hd

/-- **What skipping and expanding preserve holds at the end of a search.** -/
theorem run_invariant (skip : ∀ seen d q, d ∈ seen → P seen (d :: q) → P seen q)
    (step : ∀ seen d q r, d ∉ seen → P seen (d :: q) → expand d = .ok r →
      P (r.2 ++ d :: seen) (q ++ r.1))
    {fuel : ℕ} {out : List D} (h : P seen queue)
    (hrun : run expand stuck fuel seen queue = .ok out) : P out [] := by
  induction fuel generalizing seen queue with
  | zero =>
    have hskip := skip_invariant (skip seen) h
    rw [run] at hrun
    cases hq : queue.dropWhile (· ∈ seen) with
    | nil =>
      rw [hq] at hrun hskip
      rw [← Except.ok.inj hrun]
      exact hskip
    | cons d rest =>
      rw [hq] at hrun
      cases he : expand d <;> simp [he, bind, Except.bind] at hrun
  | succ fuel ih =>
    have hskip := skip_invariant (skip seen) h
    rw [run] at hrun
    cases hq : queue.dropWhile (· ∈ seen) with
    | nil =>
      rw [hq] at hrun hskip
      rw [← Except.ok.inj hrun]
      exact hskip
    | cons d rest =>
      rw [hq] at hrun hskip
      cases he : expand d with
      | error e => simp [he, bind, Except.bind] at hrun
      | ok r =>
        simp only [he, bind, Except.bind] at hrun
        exact ih (step seen d rest r (notMem_of_dropWhile hq) hskip he) hrun

/-- **A search ends** if all it meets can be expanded and its fuel covers the unseen. -/
theorem run_total (keys : List D) (skip : ∀ seen d q, d ∈ seen → P seen (d :: q) → P seen q)
    (step : ∀ seen d q, d ∉ seen → P seen (d :: q) →
      d ∈ keys ∧ ∃ r, expand d = .ok r ∧ P (r.2 ++ d :: seen) (q ++ r.1))
    {fuel : ℕ} (h : P seen queue) (hfuel : (keys.filter (· ∉ seen)).length ≤ fuel) :
    ∃ out, run expand stuck fuel seen queue = .ok out := by
  induction fuel generalizing seen queue with
  | zero =>
    have hskip := skip_invariant (skip seen) h
    rw [run]
    cases hq : queue.dropWhile (· ∈ seen) with
    | nil => exact ⟨seen, rfl⟩
    | cons d rest =>
      rw [hq] at hskip
      have hd := notMem_of_dropWhile hq
      have hmem : d ∈ keys.filter (· ∉ seen) :=
        List.mem_filter.mpr ⟨(step seen d rest hd hskip).1, by simpa using hd⟩
      exact absurd (List.length_pos_of_mem hmem) (by omega)
  | succ fuel ih =>
    have hskip := skip_invariant (skip seen) h
    rw [run]
    cases hq : queue.dropWhile (· ∈ seen) with
    | nil => exact ⟨seen, rfl⟩
    | cons d rest =>
      rw [hq] at hskip
      have hd := notMem_of_dropWhile hq
      obtain ⟨hk, r, hr, hP⟩ := step seen d rest hd hskip
      simp only [hr, bind, Except.bind]
      refine ih hP ?_
      -- the element just expanded is no longer counted
      have hsub : (keys.filter (· ∉ r.2 ++ d :: seen)).Sublist
          ((keys.filter (· ∉ seen)).filter (· ≠ d)) := by
        rw [List.filter_filter]
        refine List.monotone_filter_right keys fun x hx => ?_
        have hx' : x ∉ r.2 ∧ x ≠ d ∧ x ∉ seen := by simpa using hx
        simp [hx'.2.1, hx'.2.2]
      have hmem : d ∈ keys.filter (· ∉ seen) := List.mem_filter.mpr ⟨hk, by simpa using hd⟩
      have hlt : ((keys.filter (· ∉ seen)).filter (· ≠ d)).length <
          (keys.filter (· ∉ seen)).length :=
        List.length_filter_lt_length_iff_exists.mpr ⟨d, hmem, by simp⟩
      have := hsub.length_le
      omega

/-! ## Growing sets -/

/-- **A growing set inside a finite one is stable** after as many rounds as that has elements. -/
theorem iterate_card {α : Type} [DecidableEq α] {U : Finset α} {F : Finset α → Finset α}
    (hmono : Monotone F) (hU : ∀ s, F s ⊆ U) (k : ℕ) : F^[k] ∅ ⊆ F^[U.card] ∅ := by
  have hstep : ∀ n, F^[n] ∅ ⊆ F^[n + 1] ∅ := by
    intro n
    rw [Function.iterate_succ_apply]
    exact hmono.iterate n (Finset.empty_subset _)
  have hchain : Monotone fun n => F^[n] ∅ := monotone_nat_of_le_succ hstep
  -- as long as the rounds still add something, each adds an element
  have hgrow : ∀ n, (∃ m < n, F^[m + 1] ∅ = F^[m] ∅) ∨ n ≤ (F^[n] ∅).card := by
    intro n
    induction n with
    | zero => exact .inr (Nat.zero_le _)
    | succ n ih =>
      rcases ih with ⟨m, hm, he⟩ | hn
      · exact .inl ⟨m, by omega, he⟩
      · rcases eq_or_ne (F^[n + 1] ∅) (F^[n] ∅) with he | hne
        · exact .inl ⟨n, by omega, he⟩
        · have := Finset.card_lt_card ((hstep n).ssubset_of_ne hne.symm)
          exact .inr (by omega)
  have hstable : ∀ m, F^[m + 1] ∅ = F^[m] ∅ → ∀ j, F^[m + j] ∅ = F^[m] ∅ := by
    intro m he j
    induction j with
    | zero => rfl
    | succ j ih =>
      calc F^[m + j + 1] ∅ = F (F^[m + j] ∅) := Function.iterate_succ_apply' F (m + j) ∅
        _ = F (F^[m] ∅) := by rw [ih]
        _ = F^[m + 1] ∅ := (Function.iterate_succ_apply' F m ∅).symm
        _ = F^[m] ∅ := he
  rcases hgrow U.card with ⟨m, hm, he⟩ | hcard
  · rcases le_total k m with hk | hk
    · exact (hchain hk).trans (hchain hm.le)
    · obtain ⟨j, rfl⟩ := Nat.exists_eq_add_of_le hk
      rw [hstable m he j]
      exact hchain hm.le
  · have hsub : F^[U.card] ∅ ⊆ U := by
      cases hc : U.card with
      | zero => exact Finset.empty_subset _
      | succ n => rw [Function.iterate_succ_apply']; exact hU _
    rw [Finset.eq_of_subset_of_card_le hsub hcard]
    cases k with
    | zero => exact Finset.empty_subset _
    | succ n => rw [Function.iterate_succ_apply']; exact hU _

end Worklist
