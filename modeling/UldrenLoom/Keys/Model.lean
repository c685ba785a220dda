import UldrenLoom.Cbor
import UldrenLoom.Lib.Hex
import UldrenLoom.Lib.Wire

/-!
# Wraps of the data key

The encryption metadata of a Loom: its data key sealed once for each credential that may unlock it. The
ciphers and the passphrase derivations are parameters.
-/

namespace UldrenLoom.Keys

open ByteString Fallible Wire

/-! ## Ciphers -/

/-- A 32-byte key. -/
abbrev Key : Type := {bs : Bytes // bs.length = 32}

/-- The cipher suites. -/
inductive Suite where
  | xChaCha20Poly1305
  | aes256Gcm
deriving Repr, DecidableEq

/-- The passphrase derivations. -/
inductive Kdf where
  | argon2id
  | pbkdf2Sha256
deriving Repr, DecidableEq

/-- The ciphers and passphrase derivations, idealised. -/
structure Crypto where
  argon2idMaster : (passphrase salt : Bytes) → Result Key
  pbkdf2Master : (passphrase salt : Bytes) → Key
  encrypt : Suite → Key → (nonce aad plaintext : Bytes) → Option Bytes
  decrypt : Suite → Key → (nonce aad ciphertext : Bytes) → Option Bytes
  decrypt_encrypt : ∀ {suite key nonce aad plaintext ciphertext},
    encrypt suite key nonce aad plaintext = some ciphertext → ∀ key' aad',
      decrypt suite key' nonce aad' ciphertext =
        if key' = key ∧ aad' = aad then some plaintext else none

namespace Suite

/-- The id of a suite on disk. -/
def id : Suite → UInt8
  | xChaCha20Poly1305 => 0x01
  | aes256Gcm => 0x02

/-- A byte as `{:#04x}` prints it. -/
def hexByte (b : UInt8) : String := "0x" ++ String.ofList (Hex.encode [b])

/-- The suite of an id. -/
def fromId (id : UInt8) : Result Suite :=
  if id = 0x01 then .ok xChaCha20Poly1305
  else if id = 0x02 then .ok aes256Gcm
  else .error (.invalid ("unknown AEAD suite id " ++ hexByte id))

/-- The bytes of a nonce. -/
def nonceLen : Suite → ℕ
  | xChaCha20Poly1305 => 24
  | aes256Gcm => 12

/-- The name in messages. -/
def asStr : Suite → String
  | xChaCha20Poly1305 => "xchacha20-poly1305"
  | aes256Gcm => "aes-256-gcm"

theorem fromId_id (s : Suite) : fromId s.id = .ok s := by
  cases s <;> rfl

end Suite

/-- A nonce has the length its suite asks for. -/
def checkNonce (suite : Suite) (nonce : Bytes) : Result Unit :=
  if nonce.length = suite.nonceLen then .ok ()
  else .error (.invalid (suite.asStr ++ " nonce must be " ++ toString suite.nonceLen ++
    " bytes, got " ++ toString nonce.length))

/-- The cipher and derivation of a suite, with their id on disk. -/
def wrapPairing : Suite → UInt8 × Suite × Kdf
  | .aes256Gcm => (0x02, .aes256Gcm, .pbkdf2Sha256)
  | .xChaCha20Poly1305 => (0x01, .xChaCha20Poly1305, .argon2id)

/-- The cipher and derivation of an id on disk. -/
def wrapPairingFromAlg (wrapAlg : UInt8) : Result (Suite × Kdf) :=
  if wrapAlg = 0x01 then .ok (.xChaCha20Poly1305, .argon2id)
  else if wrapAlg = 0x02 then .ok (.aes256Gcm, .pbkdf2Sha256)
  else .error ⟨.unsupported, "unknown DEK-wrap algorithm " ++ Suite.hexByte wrapAlg⟩

theorem wrapPairingFromAlg_wrapPairing (s : Suite) :
    wrapPairingFromAlg (wrapPairing s).1 = .ok (wrapPairing s).2 := by
  cases s <;> rfl

/-- What every wrap is bound to. -/
def wrapAad : Bytes := strBytes "uldren-loom/dek-wrap/v1"

/-! ## Credentials and wraps -/

/-- Who holds the key that a wrap is sealed under. -/
inductive WrapSource where
  | passphrase
  | keystore
  | secureEnclave
  | passkey
  | kms
  | rawKek
  | tpm
  | hsm
deriving Repr, DecidableEq

/-- A credential. -/
inductive KeySpec where
  | passphrase (p : String)
  | rawKek (kek : Key)
deriving DecidableEq

namespace KeySpec

/-- The source of the wraps for a credential. -/
def wrapSource : KeySpec → WrapSource
  | passphrase _ => .passphrase
  | rawKek _ => .rawKek

/-- A passphrase is tried on passphrase entries, a raw key on all others. -/
def unlocks (spec : KeySpec) (source : WrapSource) : Bool :=
  match spec with
  | passphrase _ => source == .passphrase
  | rawKek _ => source != .passphrase

theorem unlocks_wrapSource (spec : KeySpec) : spec.unlocks spec.wrapSource = true := by
  cases spec <;> rfl

end KeySpec

/-- The data key sealed for one credential. -/
structure WrapEntry where
  source : WrapSource
  wrapAlg : UInt8
  kdfSalt : Bytes
  wrapNonce : Bytes
  wrappedDek : Bytes
  params : Bytes
deriving DecidableEq

/-- The encryption metadata. -/
structure EncryptionMeta where
  activeSuite : Suite
  wraps : List WrapEntry
deriving DecidableEq

/-- An unlocked data key. -/
structure DekSession where
  dek : Key
  activeSuite : Suite
deriving DecidableEq

section Calls

variable (K : Crypto)

/-- The key a credential seals under: derived from a passphrase, or given. -/
def masterKey (spec : KeySpec) (salt : Bytes) (kdf : Kdf) : Result Key :=
  match spec with
  | .passphrase p =>
    match kdf with
    | .argon2id => K.argon2idMaster (strBytes p) salt
    | .pbkdf2Sha256 => .ok (K.pbkdf2Master (strBytes p) salt)
  | .rawKek k => .ok k

/-- Encrypt under a nonce of the right length. -/
def aeadSeal (suite : Suite) (key : Key) (nonce aad plaintext : Bytes) : Result Bytes := do
  checkNonce suite nonce
  (K.encrypt suite key nonce aad plaintext).elim (.error ⟨.internal, "AEAD seal failed"⟩) .ok

/-- Decrypt; a wrong key or other associated data is refused. -/
def aeadUnseal (suite : Suite) (key : Key) (nonce aad ciphertext : Bytes) : Result Bytes := do
  checkNonce suite nonce
  (K.decrypt suite key nonce aad ciphertext).elim
    (.error ⟨.e2eKeyInvalid, "AEAD authentication failed"⟩) .ok

/-- The salt an entry records: a raw key needs none. -/
def kdfSalt (source : WrapSource) (salt : Bytes) : Result Bytes :=
  if source = .passphrase then
    if salt.length < 8 then .error (.invalid "kdf salt must be at least 8 bytes") else .ok salt
  else .ok []

/-- The wrap of a data key for a credential, which `create` and `wrap_for_session` both write. -/
def wrapDek (spec : KeySpec) (activeSuite : Suite) (salt wrapNonce : Bytes) (dek : Key) :
    Result WrapEntry := do
  let source := spec.wrapSource
  let (wrapAlg, wrapSuite, kdf) := wrapPairing activeSuite
  let kdfSalt ← kdfSalt source salt
  if wrapNonce.length < wrapSuite.nonceLen then
    .error (.invalid ("wrap nonce must be at least " ++ toString wrapSuite.nonceLen ++
      " bytes for " ++ wrapSuite.asStr))
  else do
    let wrapNonce := wrapNonce.take wrapSuite.nonceLen
    let master ← masterKey K spec kdfSalt kdf
    let wrappedDek ← aeadSeal K wrapSuite master wrapNonce wrapAad dek.1
    .ok ⟨source, wrapAlg, kdfSalt, wrapNonce, wrappedDek, []⟩

/-- The data key of one entry, for a credential. -/
def tryUnwrap (entry : WrapEntry) (spec : KeySpec) : Result Key := do
  let (wrapSuite, kdf) ← wrapPairingFromAlg entry.wrapAlg
  let master ← masterKey K spec entry.kdfSalt kdf
  let dek ← aeadUnseal K wrapSuite master entry.wrapNonce wrapAad entry.wrappedDek
  if h : dek.length = 32 then .ok ⟨dek, h⟩
  else .error ⟨.e2eKeyInvalid, "unwrapped DEK has wrong length"⟩

/-- A passphrase unlocks the metadata. -/
def hasPassphraseWrap (wraps : List WrapEntry) : Bool := wraps.any (·.source == .passphrase)

/-- A key that is held elsewhere unlocks it. -/
def hasExternalWrap (wraps : List WrapEntry) : Bool := wraps.any (·.source != .passphrase)

/-- External wraps need a passphrase wrap beside them, unless that is waived. -/
def enforceRecoveryPolicy (wraps : List WrapEntry) (allowNoRecovery : Bool) : Result Unit :=
  if !allowNoRecovery && hasExternalWrap wraps && !hasPassphraseWrap wraps then
    .error (.invalid ("external key-source wraps require a passphrase recovery wrap unless " ++
      "no-recovery is explicitly allowed"))
  else .ok ()

namespace EncryptionMeta

/-- Metadata with one wrap, and the session of its data key. -/
def create (spec : KeySpec) (activeSuite : Suite) (salt : Bytes) (dek : Key) (wrapNonce : Bytes) :
    Result (EncryptionMeta × DekSession) := do
  let entry ← wrapDek K spec activeSuite salt wrapNonce dek
  .ok (⟨activeSuite, [entry]⟩, ⟨dek, activeSuite⟩)

/-- Try the entries in turn; the first that unwraps wins, otherwise the last error does. -/
def unlockFrom (spec : KeySpec) : (wraps : List WrapEntry) → (lastErr : LoomError) → Result Key
  | [], lastErr => .error lastErr
  | entry :: wraps, lastErr =>
    if spec.unlocks entry.source then
      match tryUnwrap K entry spec with
      | .ok dek => .ok dek
      | .error e => unlockFrom spec wraps e
    else unlockFrom spec wraps lastErr

/-- The session that a credential unlocks. -/
def unlock (m : EncryptionMeta) (spec : KeySpec) : Result DekSession := do
  let dek ← unlockFrom K spec m.wraps ⟨.e2eKeyInvalid, "no wrap entry unlocked the DEK"⟩
  .ok ⟨dek, m.activeSuite⟩

/-- A further wrap of the data key of a session. -/
def wrapForSession (session : DekSession) (spec : KeySpec) (salt wrapNonce : Bytes) :
    Result WrapEntry :=
  wrapDek K spec session.activeSuite salt wrapNonce session.dek

/-- Add a wrap for a credential that does not unlock the metadata yet. -/
def addWrap (m : EncryptionMeta) (session : DekSession) (newSpec : KeySpec) (salt wrapNonce : Bytes)
    (allowNoRecovery : Bool) : Result EncryptionMeta :=
  if session.activeSuite ≠ m.activeSuite then
    .error (.invalid "active suite mismatch between encryption metadata and DEK session")
  else if (m.unlock K newSpec).isOk then
    .error ⟨.alreadyExists, "wrap credential already exists"⟩
  else do
    let entry ← wrapForSession K session newSpec salt wrapNonce
    let wraps := m.wraps ++ [entry]
    enforceRecoveryPolicy wraps allowNoRecovery
    .ok ⟨m.activeSuite, wraps⟩

/-- Remove the wrap at an index, but not the last one. -/
def removeWrap (m : EncryptionMeta) (index : ℕ) (allowNoRecovery : Bool) : Result EncryptionMeta :=
  if m.wraps.length ≤ index then
    .error (.notFound ("wrap index " ++ toString index ++ " does not exist"))
  else if m.wraps.length = 1 then
    .error (.invalid "cannot remove the last encryption wrap")
  else do
    let wraps := m.wraps.eraseIdx index
    enforceRecoveryPolicy wraps allowNoRecovery
    .ok ⟨m.activeSuite, wraps⟩

end EncryptionMeta

end Calls

/-! ## What a wrap opens for -/

section Sealed

variable {K : Crypto}

/-- The entry is a wrap of the data key for the credential. -/
structure Sealed (K : Crypto) (dek : Key) (spec : KeySpec) (entry : WrapEntry) : Prop where
  source : entry.source = spec.wrapSource
  opens : ∃ suite kdf master, wrapPairingFromAlg entry.wrapAlg = .ok (suite, kdf) ∧
    masterKey K spec entry.kdfSalt kdf = .ok master ∧ checkNonce suite entry.wrapNonce = .ok () ∧
      K.encrypt suite master entry.wrapNonce wrapAad dek.1 = some entry.wrappedDek

theorem aeadSeal_eq_ok {suite : Suite} {key : Key} {nonce aad plaintext ciphertext : Bytes}
    (h : aeadSeal K suite key nonce aad plaintext = .ok ciphertext) :
    checkNonce suite nonce = .ok () ∧
      K.encrypt suite key nonce aad plaintext = some ciphertext := by
  obtain ⟨⟨⟩, hnonce, h⟩ := of_bind h
  exact ⟨hnonce, elim_eq_ok h⟩

variable {spec : KeySpec} {dek : Key} {entry : WrapEntry}

/-- **What a credential wraps is a wrap for it.** -/
theorem sealed_of_wrapDek {suite : Suite} {salt nonce : Bytes}
    (h : wrapDek K spec suite salt nonce dek = .ok entry) : Sealed K dek spec entry := by
  obtain ⟨kdfSalt, _, h⟩ := of_bind h
  obtain ⟨_, h⟩ := ite_error_eq_ok.mp h
  obtain ⟨master, hmaster, h⟩ := of_bind h
  obtain ⟨wrapped, hseal, h⟩ := of_bind h
  cases h
  obtain ⟨hnonce, hseal⟩ := aeadSeal_eq_ok hseal
  exact ⟨rfl, _, _, master, wrapPairingFromAlg_wrapPairing suite, hmaster, hnonce, hseal⟩

/-- **A wrap opens for the credentials with its owner's key**, and gives the data key. -/
theorem tryUnwrap_eq_ok {got : Key} {owner : KeySpec} (h : Sealed K dek owner entry) :
    tryUnwrap K entry spec = .ok got ↔ got = dek ∧ ∃ kdf key,
      masterKey K owner entry.kdfSalt kdf = .ok key ∧ masterKey K spec entry.kdfSalt kdf = .ok key ∧
        ∃ suite, wrapPairingFromAlg entry.wrapAlg = .ok (suite, kdf) := by
  obtain ⟨_, suite, kdf, master, halg, hmaster, hnonce, hseal⟩ := h
  rw [tryUnwrap, halg, ok_bind]
  constructor
  · intro h
    obtain ⟨key, hkey, h⟩ := of_bind h
    obtain ⟨bytes, hbytes, h⟩ := of_bind h
    obtain ⟨⟨⟩, _, hbytes⟩ := of_bind hbytes
    have hopen := elim_eq_ok hbytes
    rw [K.decrypt_encrypt hseal] at hopen
    obtain ⟨⟨hmk, _⟩, hdek⟩ := Option.ite_none_right_eq_some.mp hopen
    cases hdek
    subst hmk
    rw [dif_pos dek.2] at h
    exact ⟨(Except.ok.inj h).symm, kdf, key, hmaster, hkey, suite, rfl⟩
  · rintro ⟨rfl, kdf', key, howner, hspec, suite', heq⟩
    cases heq
    cases howner.symm.trans hmaster
    simp only [hspec, ok_bind, aeadUnseal, hnonce, K.decrypt_encrypt hseal, and_self, if_true,
      Option.elim_some, dif_pos got.2]

theorem tryUnwrap_of_sealed (h : Sealed K dek spec entry) : tryUnwrap K entry spec = .ok dek := by
  obtain ⟨_, suite, kdf, key, halg, hkey, _⟩ := id h
  exact (tryUnwrap_eq_ok h).mpr ⟨rfl, kdf, key, hkey, hkey, suite, halg⟩

/-- The credentials of the set have different keys over any one salt. -/
def Separates (K : Crypto) (C : Set KeySpec) : Prop :=
  ∀ spec ∈ C, ∀ spec' ∈ C, ∀ salt kdf key,
    masterKey K spec salt kdf = .ok key → masterKey K spec' salt kdf = .ok key → spec = spec'

/-- A wrap opens for no other credential. -/
theorem tryUnwrap_of_ne {C : Set KeySpec} (hC : Separates K C) {owner : KeySpec}
    (howner : owner ∈ C) (hspec : spec ∈ C) (hne : spec ≠ owner) (h : Sealed K dek owner entry) :
    ∃ e, tryUnwrap K entry spec = .error e := by
  cases htry : tryUnwrap K entry spec with
  | error e => exact ⟨e, rfl⟩
  | ok got =>
    obtain ⟨_, kdf, key, hkey, hkey', _⟩ := (tryUnwrap_eq_ok h).mp htry
    exact absurd (hC spec hspec owner howner _ kdf key hkey' hkey) hne

end Sealed

/-! ## The superblock record -/

namespace WrapSource

/-- The code of a source on disk. -/
def code : WrapSource → UInt8
  | passphrase => 0x01
  | keystore => 0x02
  | secureEnclave => 0x03
  | passkey => 0x04
  | kms => 0x05
  | rawKek => 0x06
  | tpm => 0x07
  | hsm => 0x08

/-- The source of a code. -/
def fromCode (code : UInt8) : Result WrapSource :=
  match code.toNat with
  | 1 => .ok passphrase
  | 2 => .ok keystore
  | 3 => .ok secureEnclave
  | 4 => .ok passkey
  | 5 => .ok kms
  | 6 => .ok rawKek
  | 7 => .ok tpm
  | 8 => .ok hsm
  | _ => .error (.corrupt ("unknown wrap source " ++ Suite.hexByte code))

theorem fromCode_code (s : WrapSource) : fromCode s.code = .ok s := by
  cases s <;> rfl

end WrapSource

/-- The first bytes of the record. -/
def metaMagic : Bytes := strBytes "LKM1"

/-- The version that is written and read. -/
def metaVersion : UInt8 := 2

/-- A field after its length in two bytes. -/
def putField (field : Bytes) : Bytes := beBytes 2 field.length ++ field

/-- A wrap as it stands in the record. -/
def WrapEntry.put (w : WrapEntry) : Bytes :=
  [w.source.code, w.wrapAlg] ++
    (putField w.kdfSalt ++ (putField w.wrapNonce ++ (putField w.wrappedDek ++ putField w.params)))

/-- The record of the metadata. -/
def EncryptionMeta.encode (m : EncryptionMeta) : Bytes :=
  metaMagic ++ [metaVersion, m.activeSuite.id] ++ (beBytes 2 m.wraps.length ++ m.wraps.flatMap (·.put))

/-- The error of a record that does not parse. -/
def corruptMeta : LoomError := .corrupt "corrupt encryption_meta"

/-- Two bytes, big-endian. -/
def readU16 : Reader LoomError ℕ := do
  let bs ← take corruptMeta 2
  pure (beNat bs)

/-- A field after its length. -/
def readField : Reader LoomError Bytes := do
  let len ← readU16
  take corruptMeta len

/-- Read a wrap. -/
def WrapEntry.read : Reader LoomError WrapEntry := do
  let head ← take corruptMeta 2
  let source ← StateT.lift (WrapSource.fromCode (head.getD 0 0))
  let kdfSalt ← readField
  let wrapNonce ← readField
  let wrappedDek ← readField
  let params ← readField
  pure ⟨source, head.getD 1 0, kdfSalt, wrapNonce, wrappedDek, params⟩

/-- Bytes after the last wrap are not looked at. -/
def EncryptionMeta.decode (bytes : Bytes) : Result EncryptionMeta := do
  let (head, rest) ← take corruptMeta 6 bytes
  if head.take 4 ≠ metaMagic then .error corruptMeta
  else do
    let activeSuite ← (Suite.fromId (head.getD 5 0)).mapError fun _ => corruptMeta
    if head.getD 4 0 ≠ metaVersion then
      .error (.corrupt ("unsupported encryption_meta version " ++ toString (head.getD 4 0)))
    else do
      let (wraps, _) ← (readU16 >>= times WrapEntry.read) rest
      if wraps.isEmpty then .error corruptMeta else .ok ⟨activeSuite, wraps⟩

theorem reads_u16 {n : ℕ} (h : n ≤ 65535) : Reads readU16 (beBytes 2 n) n := by
  have h2 : Reads (take corruptMeta 2) (beBytes 2 n) (beBytes 2 n) := by
    simpa using reads_take corruptMeta (beBytes 2 n)
  have hr : Reads readU16 (beBytes 2 n) (beNat (beBytes 2 n)) := h2.bind_pure
  rwa [beNat_beBytes_of_lt (by omega)] at hr

theorem reads_field {field : Bytes} (h : field.length ≤ 65535) :
    Reads readField (putField field) field :=
  (reads_u16 h).bind (reads_take _ _)

/-- The fields of the entry fit their lengths. -/
def WrapEntry.Fits (w : WrapEntry) : Prop :=
  w.kdfSalt.length ≤ 65535 ∧ w.wrapNonce.length ≤ 65535 ∧ w.wrappedDek.length ≤ 65535 ∧
    w.params.length ≤ 65535

theorem WrapEntry.reads_put {w : WrapEntry} (h : w.Fits) : Reads WrapEntry.read w.put w := by
  obtain ⟨hsalt, hnonce, hdek, hparams⟩ := h
  have hlift : Reads (StateT.lift (WrapSource.fromCode w.source.code)) [] w.source := by
    intro rest
    rw [WrapSource.fromCode_code]
    rfl
  exact (reads_take corruptMeta [w.source.code, w.wrapAlg]).bind (hlift.bind ((reads_field hsalt).bind
    ((reads_field hnonce).bind ((reads_field hdek).bind (reads_field hparams).bind_pure))))

/-- **The record is read back**, if the counts fit. -/
theorem EncryptionMeta.decode_encode {m : EncryptionMeta} (hne : m.wraps ≠ [])
    (hlen : m.wraps.length ≤ 65535) (hfits : ∀ w ∈ m.wraps, w.Fits) :
    decode m.encode = .ok m := by
  have hhead := reads_take corruptMeta (metaMagic ++ [metaVersion, m.activeSuite.id])
    (beBytes 2 m.wraps.length ++ m.wraps.flatMap (·.put))
  have hwraps : Reads (readU16 >>= times WrapEntry.read)
      (beBytes 2 m.wraps.length ++ m.wraps.flatMap (·.put)) (m.wraps.map id) :=
    (reads_u16 hlen).bind (reads_times fun w hw => WrapEntry.reads_put (hfits w hw))
  have hrest := hwraps []
  rw [List.append_nil, List.map_id] at hrest
  rw [decode, encode, show (6 : ℕ) = (metaMagic ++ [metaVersion, m.activeSuite.id]).length from rfl,
    hhead, ok_bind]
  have hsuite : Suite.fromId ((metaMagic ++ [metaVersion, m.activeSuite.id]).getD 5 0) =
      .ok m.activeSuite := m.activeSuite.fromId_id
  have hmagic : (metaMagic ++ [metaVersion, m.activeSuite.id]).take 4 = metaMagic := rfl
  have hversion : (metaMagic ++ [metaVersion, m.activeSuite.id]).getD 4 0 = metaVersion := rfl
  simp only [hsuite, hrest, hmagic, hversion, Except.mapError, ok_bind, ne_eq, not_true_eq_false, if_false]
  rw [if_neg (by simpa using hne)]

end UldrenLoom.Keys
