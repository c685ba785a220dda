import UldrenLoom.Keys.Model
import UldrenLoom.Lib.Machine

/-!
# Rotating the credentials of a data key

The metadata over any sequence of unlocks, added and removed wraps, from its creation on.

* **`wraps_sound`**: after every run just the owners of wraps unlock.
-/

namespace UldrenLoom.Keys

open ByteString Fallible Machine List

/-! ## Calls -/

/-- The metadata, the sessions unlocked from it so far, and the owners of its wraps. -/
structure State where
  metadata : EncryptionMeta
  sessions : List DekSession
  owners : List KeySpec

/-- The calls on metadata that has been created. -/
inductive Call where
  | unlock (spec : KeySpec)
  | addWrap (session : DekSession) (newSpec : KeySpec) (salt wrapNonce : Bytes) (allowNoRecovery : Bool)
  | removeWrap (index : ℕ) (allowNoRecovery : Bool)

section Step

variable (K : Crypto)

def State.call (σ : State) : Call → Result State
  | .unlock spec => do
    let session ← σ.metadata.unlock K spec
    .ok { σ with sessions := session :: σ.sessions }
  | .addWrap session newSpec salt wrapNonce allowNoRecovery => do
    let metadata ← σ.metadata.addWrap K session newSpec salt wrapNonce allowNoRecovery
    .ok ⟨metadata, σ.sessions, σ.owners ++ [newSpec]⟩
  | .removeWrap index allowNoRecovery => do
    let metadata ← σ.metadata.removeWrap index allowNoRecovery
    .ok ⟨metadata, σ.sessions, σ.owners.eraseIdx index⟩

/-- A call that fails leaves the metadata as it was. -/
def step (c : Call) (σ : State) : Result Unit × State :=
  match σ.call K c with
  | .ok σ' => (.ok (), σ')
  | .error e => (.error e, σ)

end Step

/-- The credentials are of the set, and wraps are added with sessions unlocked from this metadata. -/
def Allowed (C : Set KeySpec) (σ : State) : Call → Prop
  | .unlock spec => spec ∈ C
  | .addWrap session newSpec _ _ _ => session ∈ σ.sessions ∧ newSpec ∈ C
  | .removeWrap _ _ => True

/-- Where there are external wraps there is a passphrase wrap. -/
def Recoverable (m : EncryptionMeta) : Prop :=
  hasExternalWrap m.wraps = true → hasPassphraseWrap m.wraps = true

section Edits

variable {K : Crypto} {C : Set KeySpec} {dek : Key} {suite : Suite} {m : EncryptionMeta}

theorem recoverable_of_enforce (h : enforceRecoveryPolicy m.wraps false = .ok ()) : Recoverable m := by
  intro hext
  by_contra hpass
  rw [enforceRecoveryPolicy, if_pos (by simp [hext, hpass])] at h
  cases h

variable {spec : KeySpec} {salt nonce : Bytes} {allow : Bool}

theorem addWrap_eq_ok {m' : EncryptionMeta} {session : DekSession}
    (h : m.addWrap K session spec salt nonce allow = .ok m') :
    (m.unlock K spec).isOk = false ∧ enforceRecoveryPolicy m'.wraps allow = .ok () ∧
      ∃ entry, Sealed K session.dek spec entry ∧ m' = ⟨m.activeSuite, m.wraps ++ [entry]⟩ := by
  obtain ⟨_, h⟩ := ite_error_eq_ok.mp h
  obtain ⟨hunlock, h⟩ := ite_error_eq_ok.mp h
  obtain ⟨entry, hentry, h⟩ := of_bind h
  obtain ⟨⟨⟩, hpolicy, h⟩ := of_bind h
  cases h
  exact ⟨by simpa using hunlock, hpolicy, entry, sealed_of_wrapDek hentry, rfl⟩

theorem removeWrap_eq_ok {m' : EncryptionMeta} {index : ℕ} (h : m.removeWrap index allow = .ok m') :
    index < m.wraps.length ∧ m.wraps.length ≠ 1 ∧ enforceRecoveryPolicy m'.wraps allow = .ok () ∧
      m' = ⟨m.activeSuite, m.wraps.eraseIdx index⟩ := by
  obtain ⟨hindex, h⟩ := ite_error_eq_ok.mp h
  obtain ⟨hlen, h⟩ := ite_error_eq_ok.mp h
  obtain ⟨⟨⟩, hpolicy, h⟩ := of_bind h
  cases h
  exact ⟨not_le.mp hindex, hlen, hpolicy, rfl⟩

/-! ## Owners -/

/-- A credential that owns a wrap unlocks the data key. -/
theorem unlockFrom_of_mem (hC : Separates K C) {owners : List KeySpec} {wraps : List WrapEntry}
    (h : List.Forall₂ (Sealed K dek) owners wraps) (hknown : ∀ o ∈ owners, o ∈ C)
    (hmem : spec ∈ owners) (e : LoomError) :
    EncryptionMeta.unlockFrom K spec wraps e = .ok dek := by
  induction h generalizing e with
  | nil => cases hmem
  | @cons owner entry _ _ hsealed _ ih =>
    rw [EncryptionMeta.unlockFrom]
    by_cases heq : spec = owner
    · subst heq
      rw [hsealed.source, if_pos spec.unlocks_wrapSource, tryUnwrap_of_sealed hsealed]
    · have hrest := ih (fun o ho => hknown o (mem_cons_of_mem _ ho)) (mem_of_ne_of_mem heq hmem)
      obtain ⟨e', he'⟩ := tryUnwrap_of_ne hC (hknown owner mem_cons_self) (hknown spec hmem) heq
        hsealed
      rw [he']
      split_ifs
      · exact hrest e'
      · exact hrest e

theorem unlockFrom_of_not_mem (hC : Separates K C) {owners : List KeySpec}
    {wraps : List WrapEntry} (h : List.Forall₂ (Sealed K dek) owners wraps)
    (hknown : ∀ o ∈ owners, o ∈ C) (hspec : spec ∈ C) (hmem : spec ∉ owners) (e : LoomError) :
    ∃ e', EncryptionMeta.unlockFrom K spec wraps e = .error e' := by
  induction h generalizing e with
  | nil => exact ⟨e, rfl⟩
  | @cons owner entry _ _ hsealed _ ih =>
    obtain ⟨hne, hmem⟩ := not_or.mp (mt mem_cons.mpr hmem)
    have hrest := ih (fun o ho => hknown o (mem_cons_of_mem _ ho)) hmem
    obtain ⟨e', he'⟩ := tryUnwrap_of_ne hC (hknown owner mem_cons_self) hspec hne hsealed
    rw [EncryptionMeta.unlockFrom, he']
    split_ifs
    · exact hrest e'
    · exact hrest e

/-! ## The invariant -/

/-- Each wrap is its owner's, no credential owns two, and all sessions hold the data key. -/
structure Inv (K : Crypto) (C : Set KeySpec) (dek : Key) (suite : Suite) (σ : State) : Prop where
  paired : List.Forall₂ (Sealed K dek) σ.owners σ.metadata.wraps
  known : ∀ o ∈ σ.owners, o ∈ C
  once : σ.owners.Nodup
  remains : σ.metadata.wraps ≠ []
  active : σ.metadata.activeSuite = suite
  sessions : ∀ s ∈ σ.sessions, s = ⟨dek, suite⟩

namespace Inv

variable {σ : State}

theorem unlock_of_mem (hC : Separates K C) (h : Inv K C dek suite σ) {spec : KeySpec}
    (hmem : spec ∈ σ.owners) : σ.metadata.unlock K spec = .ok ⟨dek, suite⟩ := by
  rw [EncryptionMeta.unlock, unlockFrom_of_mem hC h.paired h.known hmem, ok_bind, h.active]

theorem unlock_of_not_mem (hC : Separates K C) (h : Inv K C dek suite σ) {spec : KeySpec}
    (hspec : spec ∈ C) (hmem : spec ∉ σ.owners) : ∃ e, σ.metadata.unlock K spec = .error e := by
  obtain ⟨e, he⟩ := unlockFrom_of_not_mem hC h.paired h.known hspec hmem
    ⟨.e2eKeyInvalid, "no wrap entry unlocked the DEK"⟩
  exact ⟨e, by rw [EncryptionMeta.unlock, he, error_bind]⟩

end Inv

theorem forall₂_eraseIdx {α β : Type} {R : α → β → Prop} {as : List α} {bs : List β}
    (h : List.Forall₂ R as bs) (i : ℕ) : List.Forall₂ R (as.eraseIdx i) (bs.eraseIdx i) := by
  induction h generalizing i with
  | nil => exact .nil
  | cons hab htail ih =>
    cases i with
    | zero => exact htail
    | succ i => exact .cons hab (ih i)

theorem inv_addWrap (hC : Separates K C) {σ : State} (h : Inv K C dek suite σ)
    {session : DekSession} (hsession : session ∈ σ.sessions) (hspec : spec ∈ C)
    (hadd : σ.metadata.addWrap K session spec salt nonce allow = .ok m) :
    Inv K C dek suite ⟨m, σ.sessions, σ.owners ++ [spec]⟩ := by
  obtain ⟨hlocked, _, entry, hsealed, rfl⟩ := addWrap_eq_ok hadd
  rw [h.sessions session hsession] at hsealed
  -- the credential is new: one that owns a wrap would have unlocked the metadata
  have hnew : spec ∉ σ.owners := by
    intro hmem
    rw [h.unlock_of_mem hC hmem] at hlocked
    cases hlocked
  refine ⟨rel_append h.paired (.cons hsealed .nil), ?_, ?_, by simp, h.active, h.sessions⟩
  · intro o ho
    rcases mem_append.mp ho with ho | ho
    · exact h.known o ho
    · rwa [mem_singleton.mp ho]
  · exact nodup_append.mpr ⟨h.once, nodup_singleton _, by
      rintro o ho _ hs rfl
      exact hnew (mem_singleton.mp hs ▸ ho)⟩

theorem inv_removeWrap {σ : State} (h : Inv K C dek suite σ) {index : ℕ}
    (hremove : σ.metadata.removeWrap index allow = .ok m) :
    Inv K C dek suite ⟨m, σ.sessions, σ.owners.eraseIdx index⟩ := by
  obtain ⟨hindex, hlen, _, rfl⟩ := removeWrap_eq_ok hremove
  refine ⟨forall₂_eraseIdx h.paired index, ?_, h.once.sublist (eraseIdx_sublist _ _), ?_,
    h.active, h.sessions⟩
  · exact fun o ho => h.known o (mem_of_mem_eraseIdx ho)
  · refine ne_nil_of_length_pos ?_
    rw [length_eraseIdx_of_lt hindex]
    omega

/-- **A call keeps the wraps with their owners.** -/
theorem inv_step (hC : Separates K C) (σ : State) (c : Call) (hc : Allowed C σ c)
    (h : Inv K C dek suite σ) : Inv K C dek suite (step K c σ).2 := by
  rw [step]
  cases hcall : σ.call K c with
  | error e => exact h
  | ok σ' =>
    cases c with
    | unlock spec =>
      obtain ⟨session, hunlock, hσ'⟩ := of_bind hcall
      cases hσ'
      refine ⟨h.paired, h.known, h.once, h.remains, h.active, forall_mem_cons.mpr ⟨?_, h.sessions⟩⟩
      by_cases hmem : spec ∈ σ.owners
      · exact (Except.ok.inj (hunlock.symm.trans (h.unlock_of_mem hC hmem)))
      · obtain ⟨e, he⟩ := h.unlock_of_not_mem hC hc hmem
        cases he.symm.trans hunlock
    | addWrap session spec salt nonce allow =>
      obtain ⟨m, hadd, hσ'⟩ := of_bind hcall
      cases hσ'
      exact inv_addWrap hC h hc.1 hc.2 hadd
    | removeWrap index allow =>
      obtain ⟨m, hremove, hσ'⟩ := of_bind hcall
      cases hσ'
      exact inv_removeWrap h hremove

theorem inv_create {s : DekSession} (hspec : spec ∈ C)
    (h : EncryptionMeta.create K spec suite salt dek nonce = .ok (m, s)) :
    Inv K C dek suite ⟨m, [s], [spec]⟩ := by
  obtain ⟨entry, hentry, h⟩ := of_bind h
  cases h
  exact ⟨.cons (sealed_of_wrapDek hentry) .nil, by simpa using hspec, nodup_singleton _, by simp,
    rfl, by simp⟩

/-! ## Runs -/

/-- Just the owners of wraps unlock the data key, a wrap remains, and edits keep it recoverable. -/
structure Sound (K : Crypto) (C : Set KeySpec) (dek : Key) (suite : Suite) (σ : State) : Prop where
  unlocks : ∀ spec ∈ C, spec ∈ σ.owners → σ.metadata.unlock K spec = .ok ⟨dek, suite⟩
  locked : ∀ spec ∈ C, spec ∉ σ.owners → ∃ e, σ.metadata.unlock K spec = .error e
  paired : List.Forall₂ (Sealed K dek) σ.owners σ.metadata.wraps
  once : σ.owners.Nodup
  remains : σ.metadata.wraps ≠ []
  addWrap : ∀ session spec salt nonce m,
    σ.metadata.addWrap K session spec salt nonce false = .ok m → Recoverable m
  removeWrap : ∀ index m, σ.metadata.removeWrap index false = .ok m → Recoverable m
  decodes : σ.metadata.wraps.length ≤ 65535 → (∀ w ∈ σ.metadata.wraps, w.Fits) →
    EncryptionMeta.decode σ.metadata.encode = .ok σ.metadata

/-- **Credentials unlock the data key just as long as they own a wrap**, after every run. -/
theorem wraps_sound (hC : Separates K C) {spec : KeySpec} (hspec : spec ∈ C) {salt nonce : Bytes}
    {m : EncryptionMeta} {s : DekSession}
    (hcreate : EncryptionMeta.create K spec suite salt dek nonce = .ok (m, s)) {calls : List Call}
    (hcalls : Along (step K) (Allowed C) calls ⟨m, [s], [spec]⟩) :
    Sound K C dek suite (run (step K) calls ⟨m, [s], [spec]⟩) := by
  have h := run_invariant (inv_step hC) hcalls (inv_create hspec hcreate)
  exact {
    unlocks := fun _ _ hmem => h.unlock_of_mem hC hmem
    locked := fun _ hin hmem => h.unlock_of_not_mem hC hin hmem
    paired := h.paired
    once := h.once
    remains := h.remains
    addWrap := fun _ _ _ _ _ hadd => recoverable_of_enforce (addWrap_eq_ok hadd).2.1
    removeWrap := fun _ _ hremove => recoverable_of_enforce (removeWrap_eq_ok hremove).2.2.1
    decodes := EncryptionMeta.decode_encode h.remains }

end Edits

/-! ## A rotation -/

namespace Sample

/-- A sealed text names its key and its associated data. -/
def aead (key : Key) (aad plaintext : Bytes) : Option Bytes :=
  if aad.length < 256 then some (key.1 ++ (UInt8.ofNat aad.length :: (aad ++ plaintext))) else none

def aeadOpen (key : Key) (aad ciphertext : Bytes) : Option Bytes :=
  if ciphertext.take 32 = key.1 ∧ (ciphertext.drop 33).take (ciphertext.getD 32 0).toNat = aad then
    some ((ciphertext.drop 33).drop (ciphertext.getD 32 0).toNat)
  else none

theorem aeadOpen_aead {key : Key} {aad plaintext ciphertext : Bytes}
    (h : aead key aad plaintext = some ciphertext) (key' : Key) (aad' : Bytes) :
    aeadOpen key' aad' ciphertext = if key' = key ∧ aad' = aad then some plaintext else none := by
  obtain ⟨hlen, rfl⟩ : aad.length < 256 ∧
      key.1 ++ (UInt8.ofNat aad.length :: (aad ++ plaintext)) = ciphertext := by
    simpa [aead] using h
  have hbyte : (UInt8.ofNat aad.length).toNat = aad.length := UInt8.toNat_ofNat_of_lt' hlen
  have htake : (key.1 ++ (UInt8.ofNat aad.length :: (aad ++ plaintext))).take 32 = key.1 :=
    take_left' key.2
  have hdrop : (key.1 ++ (UInt8.ofNat aad.length :: (aad ++ plaintext))).drop 33 = aad ++ plaintext := by
    rw [show 33 = key.1.length + 1 by rw [key.2], drop_append]
    simp
  have hget : (key.1 ++ (UInt8.ofNat aad.length :: (aad ++ plaintext))).getD 32 0 =
      UInt8.ofNat aad.length := by
    rw [getD_append_right _ _ _ _ (by rw [key.2]), key.2]
    rfl
  rw [aeadOpen, htake, hdrop, hget, hbyte, take_left, drop_left]
  simp only [Subtype.ext_iff, eq_comm]

def stretch (passphrase : Bytes) : Key :=
  ⟨(passphrase ++ List.replicate 32 0).take 32, by simp⟩

def crypto : Crypto where
  argon2idMaster passphrase _ := .ok (stretch passphrase)
  pbkdf2Master passphrase _ := stretch passphrase
  encrypt _ key _ aad plaintext := aead key aad plaintext
  decrypt _ key _ aad ciphertext := aeadOpen key aad ciphertext
  decrypt_encrypt h := aeadOpen_aead h

def old : KeySpec := .passphrase "a"

def new : KeySpec := .passphrase "b"

def kek : KeySpec := .rawKek ⟨List.replicate 32 7, rfl⟩

def dataKey : Key := ⟨List.replicate 32 9, rfl⟩

def salt : Bytes := List.replicate 8 1

def nonce : Bytes := List.replicate 24 2

def session : DekSession := ⟨dataKey, .aes256Gcm⟩

def created : EncryptionMeta :=
  ⟨.aes256Gcm, [⟨.passphrase, 0x02, salt, List.replicate 12 2,
    ((aead (stretch (strBytes "a")) wrapAad dataKey.1).getD []), []⟩]⟩

/-- A raw key and a new passphrase are added, then the old passphrase is removed. -/
def rotation : List Call :=
  [.addWrap session kek salt nonce false, .addWrap session new salt nonce false, .removeWrap 0 false]

theorem separates : Separates crypto {old, new, kek} := by
  have hkeys : ∀ spec, ∃ key, (∀ salt kdf, masterKey crypto spec salt kdf = .ok key) := by
    rintro (p | k)
    · exact ⟨stretch (strBytes p), fun _ kdf => by cases kdf <;> rfl⟩
    · exact ⟨k, fun _ _ => rfl⟩
  intro spec hspec spec' hspec' salt kdf key h h'
  have heq : masterKey crypto spec [] .argon2id = masterKey crypto spec' [] .argon2id := by
    obtain ⟨k, hk⟩ := hkeys spec
    obtain ⟨k', hk'⟩ := hkeys spec'
    rw [hk, hk', ← hk salt kdf, ← hk' salt kdf, h, h']
  rcases hspec with rfl | rfl | rfl <;> rcases hspec' with rfl | rfl | rfl <;>
    first | rfl | exact absurd heq (by decide +kernel)

/-- After the rotation the new credentials unlock the data key and the old one does not. -/
theorem wraps_sound_rotation :
    (run (step crypto) rotation ⟨created, [session], [old]⟩).owners = [kek, new] ∧
      Sound crypto {old, new, kek} dataKey .aes256Gcm
        (run (step crypto) rotation ⟨created, [session], [old]⟩) := by
  have hcreate : EncryptionMeta.create crypto old .aes256Gcm salt dataKey nonce =
      .ok (created, session) := by decide +kernel
  exact ⟨by decide +kernel, wraps_sound separates (by simp) hcreate
    ⟨⟨by decide +kernel, by simp⟩, ⟨by decide +kernel, by simp⟩, trivial, trivial⟩⟩

end Sample

end UldrenLoom.Keys
