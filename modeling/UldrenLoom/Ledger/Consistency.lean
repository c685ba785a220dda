import UldrenLoom.Ledger.Model

/-!
# Consistency and inclusion proofs

The verifier's counters read off the sides of the siblings that lead from the last common subtree of
the two trees to both roots (`consistencyWalk_eq`). It does not ask whether the path reaches the
top, so a proof may stop on the way and pass off a hash from inside the second tree.

* **`verify_consistencyPath`**: the prover's path is accepted.
* **`soundAt_iff`**: accepted proofs are right exactly where the path is as long as the way up, or the sizes or an
  empty path decide alone.
* **`proofsHold`**: provers and verifiers keep what they promise each other.
-/

namespace UldrenLoom.Ledger

open Vcs Merkle Fallible List

/-! ## The counters -/

section Walk

variable {D : Type} {node : D → D → D}

theorem bits_skipZeros {a b : ℕ} (h : a ≠ 0 ∧ a % 2 = 0 → a = b) (ha : a ≠ 0) :
    bits a b = .left :: bits ((skipZeros a b).1 / 2) ((skipZeros a b).2 / 2) ∨ b = 0 := by
  induction a using Nat.strong_induction_on generalizing b with
  | _ a ih =>
    by_cases hb : b = 0
    · exact .inr hb
    · refine .inl ?_
      rw [skipZeros, bits_of_ne_zero hb]
      by_cases heven : a ≠ 0 ∧ a % 2 = 0
      · obtain rfl := h heven
        rw [if_pos heven, if_neg (by omega), if_pos rfl, nil_append]
        exact (ih (a / 2) (by omega) (fun _ => rfl) (by omega)).resolve_right (by omega)
      · rw [if_neg heven, if_pos (by omega)]
        rfl

/-- **The walk hashes the path in along the bits of the counters.** -/
theorem consistencyWalk_eq (path : List D) (a b : ℕ) (x y : D) : consistencyWalk node path a b x y =
      if path.length ≤ (bits a b).length then .ok (climb node (bits a b) path (x, y))
      else .error (.invalid "ledger consistency proof has extra nodes") := by
  induction path generalizing a b x y with
  | nil => simp [consistencyWalk, climb_nil_nodes]
  | cons z path ih =>
    unfold consistencyWalk
    by_cases hb : b = 0
    · rw [if_pos hb, hb, bits_zero, if_neg (by simp)]
    · rw [if_neg hb]
      by_cases hleft : a % 2 = 1 ∨ a = b
      · have hbits := (bits_skipZeros (a := a) (b := b) (fun h => hleft.resolve_left (by omega))
          (by rintro rfl; omega)).resolve_right hb
        rw [if_pos hleft, hbits]
        dsimp only
        rw [ih]
        simp only [length_cons, Nat.add_le_add_iff_right]
        rfl
      · obtain ⟨hodd, hne⟩ := not_or.mp hleft
        rw [if_neg hleft, bits_of_ne_zero hb, if_neg hodd, if_neg hne, ih]
        simp only [singleton_append, length_cons, Nat.add_le_add_iff_right]
        rfl

end Walk

/-- Whether a size is a power of two. -/
def IsPow (m : ℕ) : Prop := ∃ h, m = 2 ^ h

theorem start_eq_zero {m : ℕ} (hm : 1 ≤ m) (b : ℕ) : (start (m - 1) b).1 = 0 ↔ IsPow m := by
  rw [start_eq_zero_iff, Nat.sub_add_cancel hm]
  rfl

instance (m : ℕ) : Decidable (IsPow m) :=
  if hm : 1 ≤ m then decidable_of_iff _ (start_eq_zero hm 0)
  else isFalse fun ⟨h, hh⟩ => hm (hh ▸ Nat.two_pow_pos h)

theorem sides_of_isPow {m n : ℕ} (hm : 1 ≤ m) (hmn : m < n) (hpow : IsPow m) :
    ∀ side ∈ sides m n, side = .right := by
  rw [← walk_eq_sides hm hmn, walk, (start_eq_zero hm _).mpr hpow]
  exact bits_zero_left _

/-- How many nodes lead up from the last common subtree. -/
def pathLength (m n : ℕ) : ℕ := (sides m n).length + if IsPow m then 0 else 1

section Verify

variable {D : Type} [DecidableEq D] {hash : ProofHash D} {proof : LedgerConsistencyProof D}

/-- **What the verifier accepts between trees of different sizes**: a path that leads from a common
hash to both roots, or part of the way. -/
theorem verify_eq_ok (hm : 1 ≤ proof.firstTreeSize)
    (hmn : proof.firstTreeSize < proof.secondTreeSize) :
    ledgerVerifyConsistencyProof hash proof = .ok () ↔ proof.path ≠ [] ∧ ∃ s nodes,
        proof.path = (if IsPow proof.firstTreeSize then nodes else s :: nodes) ∧
        (IsPow proof.firstTreeSize → s = proof.firstRootHash) ∧
        nodes.length ≤ (sides proof.firstTreeSize proof.secondTreeSize).length ∧
        climb (hash.node proof.algo) (sides proof.firstTreeSize proof.secondTreeSize) nodes (s, s) =
          (proof.firstRootHash, proof.secondRootHash) := by
  unfold ledgerVerifyConsistencyProof ledgerMerkleVerifyConsistency
  rw [if_neg (by omega), if_neg (by omega)]
  cases hpath : proof.path with
  | nil => simp
  | cons x rest =>
    have hwalk : bits (start (proof.firstTreeSize - 1) (proof.secondTreeSize - 1)).1
        (start (proof.firstTreeSize - 1) (proof.secondTreeSize - 1)).2 =
          sides proof.firstTreeSize proof.secondTreeSize := walk_eq_sides hm hmn
    have hcheck : ∀ p : D × D, (if p.1 ≠ proof.firstRootHash ∨ p.2 ≠ proof.secondRootHash then
        (.error ⟨.integrityFailure, "ledger consistency proof root mismatch"⟩ :
          Result Unit) else .ok ()) = .ok () ↔
        p = (proof.firstRootHash, proof.secondRootHash) := by
      rintro ⟨f, s⟩
      simp
    simp only [start_eq_zero hm, consistencyWalk_eq, hwalk]
    by_cases hpow : IsPow proof.firstTreeSize
    · simp only [if_pos hpow]
      constructor
      · intro h
        obtain ⟨p, hp, h⟩ := of_bind h
        split_ifs at hp with hlen
        cases hp
        exact ⟨by simp, proof.firstRootHash, x :: rest, rfl, fun _ => rfl, hlen, (hcheck _).mp h⟩
      · rintro ⟨_, s, nodes, rfl, hs, hlen, h⟩
        obtain rfl := hs hpow
        refine bind_eq_ok.mpr ⟨_, if_pos hlen, (hcheck _).mpr h⟩
    · simp only [if_neg hpow]
      constructor
      · intro h
        obtain ⟨p, hp, h⟩ := of_bind h
        split_ifs at hp with hlen
        cases hp
        exact ⟨by simp, x, rest, rfl, fun h => absurd h hpow, hlen, (hcheck _).mp h⟩
      · rintro ⟨_, s, nodes, hcons, _, hlen, h⟩
        cases hcons
        exact bind_eq_ok.mpr ⟨_, if_pos hlen, (hcheck _).mpr h⟩

end Verify

/-! ## The prover's path -/

section Prover

variable {D : Type} [Inhabited D] {node : D → D → D}

theorem subproof_eq {m : ℕ} {leaves : List D} (complete : Bool) (hm : 1 ≤ m)
    (hmn : m ≤ leaves.length) (hsize : m = leaves.length → IsPow m) :
    subproof node leaves m complete =
      (if complete = true ∧ IsPow m then [] else [base node m leaves]) ++
        siblings node m leaves := by
  induction hn : leaves.length using Nat.strong_induction_on generalizing m leaves complete with
  | _ n ih =>
    subst hn
    rw [subproof, base, siblings]
    by_cases heq : m = leaves.length
    · have hend : leaves.length ≤ m ∨ leaves.length ≤ 1 := .inl heq.ge
      have hpow := hsize heq
      rw [if_pos heq, dif_pos hend, dif_pos hend, append_nil]
      simp only [hpow, and_true]
      rfl
    · have hend : ¬ (leaves.length ≤ m ∨ leaves.length ≤ 1) := by omega
      obtain ⟨hpos, hlt, htake, hdrop⟩ := split_lengths leaves (by omega)
      rw [if_neg heq, if_neg (by omega), dif_neg hend, dif_neg hend]
      by_cases hsplit : m ≤ split leaves.length
      · rw [if_pos hsplit, if_pos hsplit, if_pos hsplit, ← append_assoc]
        rw [ih _ hlt complete hm (by omega) (fun h => ⟨_, h.trans htake⟩) htake]
        rfl
      · have hpow : ¬ IsPow m := by
          rintro ⟨h, rfl⟩
          refine hsplit (Nat.pow_le_pow_right two_pos ((Nat.le_log2 (by omega)).mpr ?_))
          omega
        rw [if_neg hsplit, if_neg hsplit, if_neg hsplit, ← append_assoc]
        rw [ih _ (by omega) false (by omega) (by omega) (fun h => by omega) hdrop]
        simp only [Bool.false_eq_true, false_and, if_false, hpow, and_false]
        rfl

variable [DecidableEq D]

/-- **The prover's path is accepted.** -/
theorem verify_consistencyPath {hash : ProofHash D} {proof : LedgerConsistencyProof D}
    {leaves : List D} (hm : 1 ≤ proof.firstTreeSize) (hmn : proof.firstTreeSize ≤ leaves.length)
    (hsize : proof.secondTreeSize = leaves.length)
    (hfirst : proof.firstRootHash =
      ledgerMerkleRoot (hash.node proof.algo) (leaves.take proof.firstTreeSize))
    (hsecond : proof.secondRootHash = ledgerMerkleRoot (hash.node proof.algo) leaves)
    (hpath : ledgerMerkleConsistencyPath (hash.node proof.algo) leaves proof.firstTreeSize =
      .ok proof.path) : ledgerVerifyConsistencyProof hash proof = .ok () := by
  unfold ledgerMerkleConsistencyPath at hpath
  rw [if_neg (by omega)] at hpath
  by_cases heq : proof.firstTreeSize = leaves.length
  · rw [if_pos heq] at hpath
    have hnil := (Except.ok.inj hpath).symm
    rw [heq, take_length] at hfirst
    unfold ledgerVerifyConsistencyProof ledgerMerkleVerifyConsistency
    rw [if_neg (by omega), if_pos (heq.trans hsize.symm), if_neg]
    simp [hnil, hfirst, hsecond]
  · rw [if_neg heq] at hpath
    have hpath := Except.ok.inj hpath
    have hlt : proof.firstTreeSize < leaves.length := lt_of_le_of_ne hmn heq
    rw [subproof_eq true hm hmn (fun h => absurd h heq)] at hpath
    rw [verify_eq_ok hm (by omega), hsize]
    have hlen := length_siblings (hash.node proof.algo) proof.firstTreeSize leaves
    have hclimb := climb_siblings (hash.node proof.algo) hm hmn
    obtain ⟨above, habove⟩ := sides_eq_cons hm hlt
    refine ⟨?_, base (hash.node proof.algo) proof.firstTreeSize leaves,
      siblings (hash.node proof.algo) proof.firstTreeSize leaves, ?_, ?_, hlen.le, ?_⟩
    · rw [← hpath]
      refine ne_nil_of_length_pos ?_
      rw [length_append, hlen, habove, length_cons]
      omega
    · rw [← hpath]
      by_cases hpow : IsPow proof.firstTreeSize
      · rw [if_pos hpow, if_pos ⟨rfl, hpow⟩]
        rfl
      · rw [if_neg hpow, if_neg fun h => hpow h.2]
        rfl
    · rintro ⟨h, hh⟩
      rw [hfirst, hh]
      exact base_of_pow _ (hh ▸ hmn)
    · rw [hclimb, hfirst, hsecond]
      rfl

end Prover

/-! ## Soundness -/

/-- Accepted proofs with `len` nodes between trees of `m` and `n` leaves are right, for every hash
without collisions. -/
def SoundAt (m n len : ℕ) : Prop :=
  ∀ (D : Type) [Inhabited D] [DecidableEq D] (hash : ProofHash D) (leaves : List D)
    (proof : LedgerConsistencyProof D), Function.Injective2 (hash.node proof.algo) →
    leaves.length = n → proof.firstTreeSize = m → proof.secondTreeSize = n →
    proof.path.length = len →
    proof.secondRootHash = ledgerMerkleRoot (hash.node proof.algo) leaves →
    ledgerVerifyConsistencyProof hash proof = .ok () →
    proof.firstRootHash = ledgerMerkleRoot (hash.node proof.algo) (leaves.take m)

theorem soundAt_of_long {m n len : ℕ} (h : 1 ≤ m → m < n → 1 ≤ len → pathLength m n ≤ len) :
    SoundAt m n len := by
  rintro D _ _ hash leaves proof hinj rfl rfl hn rfl hroot hok
  by_cases hm : 1 ≤ proof.firstTreeSize
  · rcases lt_trichotomy proof.firstTreeSize leaves.length with hlt | heq | hgt
    · obtain ⟨hne, s, nodes, hpath, _, hle, hclimb⟩ := (verify_eq_ok hm (by omega)).mp hok
      have hlong := h hm hlt (length_pos_of_ne_nil hne)
      rw [hn] at hclimb hle
      have hlen : nodes.length = (sides proof.firstTreeSize leaves.length).length := by
        unfold pathLength at hlong
        rw [hpath] at hlong
        split_ifs at hlong
        · omega
        · rw [length_cons] at hlong
          omega
      have hsiblings := climb_siblings (hash.node proof.algo) hm hlt.le
      -- Both ways end at the second root, so they are the same way.
      have htop : (climb (hash.node proof.algo) (sides proof.firstTreeSize leaves.length) nodes
          (s, s)).2 = (climb (hash.node proof.algo) (sides proof.firstTreeSize leaves.length)
            (siblings (hash.node proof.algo) proof.firstTreeSize leaves)
            (base (hash.node proof.algo) proof.firstTreeSize leaves,
              base (hash.node proof.algo) proof.firstTreeSize leaves)).2 := by
        rw [hclimb, hsiblings, hroot]
        rfl
      obtain ⟨rfl, hs⟩ := climb_injective (hash.node proof.algo) hinj hlen
        (length_siblings (hash.node proof.algo) proof.firstTreeSize leaves) htop
      obtain rfl : s = _ := hs
      rw [hclimb] at hsiblings
      exact congrArg Prod.fst hsiblings
    · unfold ledgerVerifyConsistencyProof ledgerMerkleVerifyConsistency at hok
      rw [if_neg (by omega), if_pos (heq.trans hn.symm)] at hok
      obtain ⟨hsame, _⟩ := ite_error_eq_ok.mp hok
      rw [heq, take_length, ← hroot]
      exact not_not.mp (not_or.mp hsame).2
    · unfold ledgerVerifyConsistencyProof ledgerMerkleVerifyConsistency at hok
      rw [if_pos (by omega)] at hok
      cases hok
  · unfold ledgerVerifyConsistencyProof ledgerMerkleVerifyConsistency at hok
    rw [if_pos (by omega)] at hok
    cases hok

def freeProofHash : ProofHash Free where
  leaf _ _ _ _ d := d
  node _ := .node

/-- **A path that stops on the way** can pass off a hash from inside the second tree. -/
theorem not_soundAt_of_short {m n len : ℕ} (hm : 1 ≤ m) (hmn : m < n) (hlen : 1 ≤ len)
    (hshort : len < pathLength m n) : ¬ SoundAt m n len := by
  intro hsound
  obtain ⟨k, hk⟩ : ∃ k, (if IsPow m then k = len else k + 1 = len) := by
    split_ifs
    · exact ⟨len, rfl⟩
    · exact ⟨len - 1, by omega⟩
  have hklt : k < (sides m n).length := by
    unfold pathLength at hshort
    split_ifs at hshort hk <;> omega
  set leaves := List.replicate n (Free.full k) with hleaves
  have hlength : leaves.length = n := length_replicate
  have hdeep : Free.Deep ((sides m n).take k).length (root Free.node leaves) := by
    rw [length_take, min_eq_left hklt.le]
    refine Free.deep_root (ne_nil_of_length_pos (by omega)) fun x hx => ?_
    rw [eq_of_mem_replicate hx]
    exact Free.deep_full k
  obtain ⟨s, nodes, hnodes, htop⟩ := Free.exists_climb _ hdeep
  rw [length_take, min_eq_left hklt.le] at hnodes
  rw [← hnodes, climb_take] at htop
  have hfirst := hsound Free freeProofHash leaves
    ⟨.blake3, .zero, "", m, n, (climb Free.node (sides m n) nodes (s, s)).1,
      root Free.node leaves, if IsPow m then nodes else s :: nodes⟩
    Free.node_injective hlength rfl rfl (by
      split_ifs at hk ⊢
      · exact hnodes.trans hk
      · rw [length_cons, hnodes, hk]) rfl
    ((verify_eq_ok hm hmn).mpr ⟨?_, s, nodes, rfl, fun hpow => ?_, ?_, ?_⟩)
  · rw [← hlength] at htop hfirst
    refine Free.ne_of_climb_shorter hm (by omega) ?_ htop hfirst
    rw [hlength]
    omega
  · refine ne_nil_of_length_pos ?_
    dsimp only
    split_ifs at hk ⊢
    · omega
    · simp
  · exact (climb_fst_of_right _ (sides_of_isPow hm hmn hpow) nodes (s, s)).symm
  · exact hnodes.le.trans hklt.le
  · exact Prod.ext rfl htop

/-- **Consistency proofs are sound exactly where the path is as long as the way up**, or where the
sizes or an empty path decide alone. -/
theorem soundAt_iff (m n len : ℕ) :
    SoundAt m n len ↔ (1 ≤ m → m < n → 1 ≤ len → pathLength m n ≤ len) := by
  refine ⟨fun h hm hmn hlen => ?_, soundAt_of_long⟩
  by_contra hshort
  exact not_soundAt_of_short hm hmn hlen (not_le.mp hshort) h

namespace Sample

def leaves : List Free := [.atom, .atom, .atom]

/-- The claim that the tree of the first leaf is the tree of the first two. -/
def stopped : LedgerConsistencyProof Free where
  algo := .blake3
  workspace := .zero
  collection := ""
  firstTreeSize := 1
  secondTreeSize := 3
  firstRootHash := .node .atom .atom
  secondRootHash := .node (.node .atom .atom) .atom
  path := [.atom]

/-- The path stops below the top and is accepted, though the first root is not the first leaf's. -/
theorem stopped_accepted : Function.Injective2 (freeProofHash.node stopped.algo) ∧
      stopped.secondRootHash = ledgerMerkleRoot Free.node leaves ∧
      ledgerVerifyConsistencyProof freeProofHash stopped = .ok () ∧
      stopped.firstRootHash ≠ ledgerMerkleRoot Free.node (leaves.take stopped.firstTreeSize) := by
  have hroot : ledgerMerkleRoot Free.node leaves = .node (.node .atom .atom) .atom := by
    decide +kernel
  have hfirst : ledgerMerkleRoot Free.node (leaves.take 1) = .atom := root_singleton _ _
  refine ⟨Free.node_injective, hroot.symm, by decide +kernel, ?_⟩
  change Free.node .atom .atom ≠ ledgerMerkleRoot Free.node (leaves.take 1)
  rw [hfirst]
  decide

end Sample

/-! ## Inclusion -/

section Inclusion

variable {D : Type} [Inhabited D] {node : D → D → D}

/-- **The prover's path leads from the leaf to the root.** -/
theorem inclusion_complete (node : D → D → D) {leaves : List D} {index : ℕ} {leaf : D}
    (h : leaves[index]? = some leaf) :
    ∃ path, ledgerMerkleInclusionPath node leaves index = .ok path ∧
      ledgerMerkleInclusionRoot node leaf index leaves.length path =
        .ok (ledgerMerkleRoot node leaves) := by
  induction hn : leaves.length using Nat.strong_induction_on generalizing leaves index with
  | _ n ih =>
    subst hn
    obtain ⟨hlt, hget⟩ := List.getElem?_eq_some_iff.mp h
    rw [ledgerMerkleInclusionPath, if_neg (by omega)]
    by_cases hone : leaves.length = 1
    · obtain ⟨a, rfl⟩ := length_eq_one_iff.mp hone
      obtain rfl : index = 0 := by simpa using hlt
      refine ⟨[], if_pos rfl, ?_⟩
      rw [ledgerMerkleInclusionRoot, ledgerMerkleRoot, root_singleton]
      simpa using hget.symm
    · obtain ⟨hpos, hsplit, htake, hdrop⟩ := split_lengths leaves (by omega)
      have hroot : ledgerMerkleRoot node leaves = node _ _ := root_split node (by omega)
      rw [if_neg hone]
      by_cases hi : index < split leaves.length
      · rw [if_pos hi]
        have hleaf : (leaves.take (split leaves.length))[index]? = some leaf := by
          rw [List.getElem?_take_of_lt hi]
          exact h
        obtain ⟨path, hpath, hup⟩ := ih _ hsplit hleaf htake
        refine ⟨_, bind_eq_ok.mpr ⟨path, hpath, rfl⟩, ?_⟩
        rw [ledgerMerkleInclusionRoot, if_neg (by omega), if_neg hone, List.getLast?_concat,
          dropLast_concat]
        dsimp only
        rw [if_pos hi, hup, hroot]
        rfl
      · rw [if_neg hi]
        have hleaf : (leaves.drop (split leaves.length))[index - split leaves.length]? =
            some leaf := by
          rw [List.getElem?_drop, Nat.add_sub_cancel' (not_lt.mp hi)]
          exact h
        obtain ⟨path, hpath, hup⟩ := ih _ (by omega) hleaf hdrop
        refine ⟨_, bind_eq_ok.mpr ⟨path, hpath, rfl⟩, ?_⟩
        rw [ledgerMerkleInclusionRoot, if_neg (by omega), if_neg hone, List.getLast?_concat,
          dropLast_concat]
        dsimp only
        rw [if_neg hi, hup, hroot]
        rfl

/-- **Without collisions only the leaf itself leads to the root.** -/
theorem inclusion_sound (hnode : Function.Injective2 node) {leaves path : List D} {index : ℕ}
    {leaf : D} (h : ledgerMerkleInclusionRoot node leaf index leaves.length path =
      .ok (ledgerMerkleRoot node leaves)) : leaves[index]? = some leaf := by
  induction hn : leaves.length using Nat.strong_induction_on generalizing leaves index path with
  | _ n ih =>
    subst hn
    rw [ledgerMerkleInclusionRoot] at h
    obtain ⟨hlt, h⟩ := ite_error_eq_ok.mp h
    by_cases hone : leaves.length = 1
    · obtain ⟨a, rfl⟩ := length_eq_one_iff.mp hone
      obtain rfl : index = 0 := by simpa using hlt
      rw [if_pos hone, ledgerMerkleRoot, root_singleton] at h
      split_ifs at h
      simpa using h.symm
    · obtain ⟨hpos, hsplit, htake, hdrop⟩ := split_lengths leaves (by omega)
      have hroot : ledgerMerkleRoot node leaves = node _ _ := root_split node (by omega)
      rw [if_neg hone, hroot] at h
      cases hlast : path.getLast? with
      | none => simp [hlast] at h
      | some last =>
        simp only [hlast] at h
        by_cases hi : index < split leaves.length
        · rw [if_pos hi] at h
          obtain ⟨left, hleft, h⟩ := of_bind h
          obtain ⟨rfl, _⟩ := hnode (Except.ok.inj h)
          rw [← List.getElem?_take_of_lt hi]
          exact ih _ hsplit (by rw [htake]; exact hleft) htake
        · rw [if_neg hi] at h
          obtain ⟨right, hright, h⟩ := of_bind h
          obtain ⟨_, rfl⟩ := hnode (Except.ok.inj h)
          have hrec := ih _ (by omega) (by rw [hdrop]; exact hright) hdrop
          rwa [List.getElem?_drop, Nat.add_sub_cancel' (not_lt.mp hi)] at hrec

end Inclusion

/-! ## Provers and verifiers -/

section Proofs

variable {D : Type} [Inhabited D] [DecidableEq D] (hash : ProofHash D)

/-- Proofs of a ledger are accepted, and an accepted inclusion proof names a leaf below its root. -/
structure ProofsHold : Prop where
  inclusion : ∀ (source : LedgerSource D) ns collection state,
    source.authorizeCollection ns .ledger collection .read = .ok () →
    source.readRootState ns collection = .ok state →
    ∀ seq < (ledgerProofLeaves hash state ns collection).length,
      ∃ proof, ledgerInclusionProof hash source ns collection seq = .ok proof ∧
        ledgerVerifyInclusionProof hash proof = .ok ()
  consistency : ∀ (source : LedgerSource D) ns collection state,
    source.authorizeCollection ns .ledger collection .read = .ok () →
    source.readRootState ns collection = .ok state →
    ∀ m k, 1 ≤ m → m ≤ k → k ≤ (ledgerProofLeaves hash state ns collection).length →
      ∃ proof, ledgerConsistencyProof hash source ns collection m k = .ok proof ∧
        ledgerVerifyConsistencyProof hash proof = .ok ()
  sound : ∀ (leaves : List D) (proof : LedgerInclusionProof D),
    Function.Injective2 (hash.node proof.tree.algo) →
    proof.tree.treeSize = leaves.length →
    proof.tree.rootHash = ledgerMerkleRoot (hash.node proof.tree.algo) leaves →
    ledgerVerifyInclusionProof hash proof = .ok () → leaves[proof.seq]? = some proof.leafHash

theorem ledgerInclusionProof_accepted {source : LedgerSource D} {ns : WorkspaceId}
    {collection : String} {state : LedgerRootState D}
    (hauth : source.authorizeCollection ns .ledger collection .read = .ok ())
    (hread : source.readRootState ns collection = .ok state) {seq : ℕ}
    (hseq : seq < (ledgerProofLeaves hash state ns collection).length) :
    ∃ proof, ledgerInclusionProof hash source ns collection seq = .ok proof ∧
      ledgerVerifyInclusionProof hash proof = .ok () := by
  set leaves := ledgerProofLeaves hash state ns collection with hleaves
  have hget := List.getElem?_eq_getElem hseq
  obtain ⟨path, hpath, hup⟩ := inclusion_complete (hash.node state.algo) hget
  refine ⟨⟨⟨state.algo, ns, collection, leaves.length,
    ledgerMerkleRoot (hash.node state.algo) leaves⟩, seq, leaves[seq], path⟩, ?_, ?_⟩
  · unfold ledgerInclusionProof
    rw [hauth, ok_bind, hread, ok_bind]
    dsimp only
    rw [← hleaves, hget]
    dsimp only
    rw [hpath, ok_bind]
    rfl
  · unfold ledgerVerifyInclusionProof
    dsimp only
    rw [if_neg (by omega), hup, ok_bind, if_neg (not_not.mpr rfl)]

theorem ledgerConsistencyProof_accepted {source : LedgerSource D} {ns : WorkspaceId}
    {collection : String} {state : LedgerRootState D}
    (hauth : source.authorizeCollection ns .ledger collection .read = .ok ())
    (hread : source.readRootState ns collection = .ok state) {m k : ℕ} (hm : 1 ≤ m) (hmk : m ≤ k)
    (hk : k ≤ (ledgerProofLeaves hash state ns collection).length) :
    ∃ proof, ledgerConsistencyProof hash source ns collection m k = .ok proof ∧
      ledgerVerifyConsistencyProof hash proof = .ok () := by
  set leaves := ledgerProofLeaves hash state ns collection with hleaves
  have hlen : (leaves.take k).length = k := length_take_of_le hk
  obtain ⟨path, hpath⟩ : ∃ path, ledgerMerkleConsistencyPath (hash.node state.algo)
      (leaves.take k) m = .ok path := by
    unfold ledgerMerkleConsistencyPath
    rw [if_neg (by omega)]
    split_ifs
    · exact ⟨_, rfl⟩
    · exact ⟨_, rfl⟩
  refine ⟨⟨state.algo, ns, collection, m, k,
    ledgerMerkleRoot (hash.node state.algo) (leaves.take m),
    ledgerMerkleRoot (hash.node state.algo) (leaves.take k), path⟩, ?_, ?_⟩
  · unfold ledgerConsistencyProof
    rw [hauth, ok_bind, hread, ok_bind]
    rw [← hleaves, if_neg (by omega), hpath, ok_bind]
    rfl
  · refine verify_consistencyPath hm (hmk.trans hlen.ge) hlen.symm ?_ rfl hpath
    rw [take_take, min_eq_left hmk]

/-- **The proofs of a ledger are accepted, and accepted inclusion proofs are right.** -/
theorem proofsHold : ProofsHold hash where
  inclusion _ _ _ _ hauth hread _ hseq := ledgerInclusionProof_accepted hash hauth hread hseq
  consistency _ _ _ _ hauth hread _ _ hm hmk hk :=
    ledgerConsistencyProof_accepted hash hauth hread hm hmk hk
  sound leaves proof hnode hsize hroot hok := by
    obtain ⟨_, hok⟩ := ite_error_eq_ok.mp hok
    obtain ⟨root, hup, hok⟩ := of_bind hok
    obtain ⟨hsame, _⟩ := ite_error_eq_ok.mp hok
    obtain rfl := not_not.mp hsame
    rw [hsize, hroot] at hup
    exact inclusion_sound hnode hup

end Proofs

end UldrenLoom.Ledger
