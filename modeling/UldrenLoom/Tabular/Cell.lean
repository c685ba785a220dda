import UldrenLoom.Tabular.KeyOrder
import UldrenLoom.Tabular.RowRoundTrip

/-!
# Nesting of cells

* **`nestDepth_of_key`**: values that compare equal are nested equally deep.
-/

namespace UldrenLoom.Tabular

open ByteString Fallible Cbor Codec PrefixCode List

theorem rank_of_key {v w : Value} (h : encodeKeyValue v = encodeKeyValue w) : v.rank = w.rank := by
  obtain ⟨s, hs⟩ := exists_encodeKeyValue v
  obtain ⟨t, ht⟩ := exists_encodeKeyValue w
  rw [hs, ht] at h
  exact (List.cons.inj h).1

theorem nestDepth_of_rank {v : Value} (h1 : v.rank ≠ 24) (h2 : v.rank ≠ 25) : nestDepth v = 0 := by
  cases v with
  | list items => exact absurd rfl h1
  | map entries => exact absurd rfl h2
  | _ => rfl

theorem counted_inj {n k : ℕ} {s t : Bytes} (h : putUvarint n ++ s = putUvarint k ++ t) :
    n = k ∧ s = t := by
  have hn : n = k := putUvarint_injective (separated_putUvarint n k s t h)
  subst hn
  exact ⟨rfl, append_cancel_left h⟩

mutual

/-- **Values with the same key are nested equally deep.** -/
theorem nestDepth_of_key (v w : Value) (h : encodeKeyValue v = encodeKeyValue w) :
    nestDepth v = nestDepth w := by
  have hr := rank_of_key h
  by_cases h1 : v.rank = 24
  · match v, w with
    | .list xs, .list ys =>
      obtain ⟨hl, he⟩ := counted_inj (List.cons.inj h).2
      exact nestItems_of_key xs ys hl he
  · by_cases h2 : v.rank = 25
    · match v, w with
      | .map xs, .map ys =>
        obtain ⟨hl, he⟩ := counted_inj (List.cons.inj h).2
        exact nestEntries_of_key xs ys hl he
    · rw [nestDepth_of_rank h1 h2, nestDepth_of_rank (hr ▸ h1) (hr ▸ h2)]
termination_by structural v

theorem nestItems_of_key (xs ys : List Value) (hl : xs.length = ys.length)
    (h : encodeKeyItems xs = encodeKeyItems ys) : nestItems xs = nestItems ys := by
  match xs, ys with
  | [], [] => rfl
  | x :: xs, y :: ys =>
    have hx : encodeKeyValue x = encodeKeyValue y := separated_encodeKeyValue x y _ _ h
    have hxs : encodeKeyItems xs = encodeKeyItems ys := by
      rw [encodeKeyItems, encodeKeyItems, hx] at h
      exact append_cancel_left h
    rw [nestItems, nestItems, nestDepth_of_key x y hx, nestItems_of_key xs ys (Nat.succ.inj hl) hxs]
termination_by structural xs

theorem nestEntries_of_key (xs ys : List (Text × Value)) (hl : xs.length = ys.length)
    (h : encodeKeyEntries xs = encodeKeyEntries ys) : nestEntries xs = nestEntries ys := by
  match xs, ys with
  | [], [] => rfl
  | (k, x) :: xs, (k', y) :: ys =>
    rw [encodeKeyEntries, encodeKeyEntries] at h
    have hk := separated_orderpreserving _ _ _ _ h
    rw [hk] at h
    have h' := append_cancel_left h
    have hx : encodeKeyValue x = encodeKeyValue y := separated_encodeKeyValue x y _ _ h'
    rw [hx] at h'
    rw [nestEntries, nestEntries, nestDepth_of_key x y hx,
      nestEntries_of_key xs ys (Nat.succ.inj hl) (append_cancel_left h')]
termination_by structural xs

end

end UldrenLoom.Tabular
