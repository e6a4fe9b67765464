import ObSink.Core.Crypto

/-! # The key hierarchy

The account key, the passphrase that wraps it, the vault keys it wraps and the
approval of a device (`core/src/crypto.rs`). The primitives are parameters, and
so is the type of bytes: ideal primitives never collide, which functions into
32 octets cannot all give.
-/

namespace ObSink

open Aead (nonceLen)

def tagLen : Nat := 16
def saltLen : Nat := 16
def wrappedKeyLen : Nat := nonceLen + 32 + tagLen
def approvalPublicKeyLen : Nat := 32
def approvalBlobLen : Nat := approvalPublicKeyLen + wrappedKeyLen
def approvalFingerprintLen : Nat := 8

def fingerprintAlphabet : List Char := "ABCDEFGHJKLMNPQRSTUVWXYZ23456789".toList

/-- An array of `n` bytes. -/
abbrev Sized (Byte : Type) (n : Nat) := {bytes : List Byte // bytes.length = n}

abbrev KeyBytes (Byte : Type) := Sized Byte 32

/-- What `crypto.rs` takes from its libraries: AES-256-GCM, HKDF-SHA256 and
HMAC-SHA256, Argon2id, SHA-256 and X25519. -/
structure Primitives (Byte : Type) where
  utf8 : String → List Byte
  encrypt : (key : KeyBytes Byte) → (nonce aad msg : List Byte) → List Byte
  decrypt : (key : KeyBytes Byte) → (nonce aad ciphertext : List Byte) → Option (List Byte)
  hkdfSubkey : (master : KeyBytes Byte) → (info : List Byte) → KeyBytes Byte
  hmac : (key : KeyBytes Byte) → (msg : List Byte) → KeyBytes Byte
  argon2 : (passphrase : String) → (salt : List Byte) → Option (KeyBytes Byte)
  sha256 : List Byte → Sized UInt8 32
  publicKey : (secret : KeyBytes Byte) → KeyBytes Byte
  diffieHellman : (own peer : KeyBytes Byte) → KeyBytes Byte
  wasContributory : (shared : KeyBytes Byte) → Bool

/-- What the server stores for an account's passphrase. -/
structure AccountKeyMaterial (Byte : Type) where
  wrapped : List Byte
  salt : Sized Byte saltLen
  verifier : KeyBytes Byte

/-- A pending device's keypair. -/
structure ApprovalRequest (Byte : Type) where
  secret : KeyBytes Byte
  publicKey : KeyBytes Byte

/-- `normalize_fingerprint` -/
def normalizeFingerprint (typed : String) : String :=
  String.ofList ((typed.toList.filter fun c => !Text.isWhitespace c && c ≠ '-').map fun c =>
    if c.toUpper = '0' then 'O' else c.toUpper)

namespace Primitives

variable {Byte : Type} (prim : Primitives Byte)

def deriveKey (passphrase : String) (salt : List Byte) : Except CryptoError (KeyBytes Byte) :=
  match prim.argon2 passphrase salt with
  | some key => .ok key
  | none => .error .keyDerivation

def encryptAad (key : KeyBytes Byte) (nonce : Sized Byte nonceLen) (aad plaintext : List Byte) :
    List Byte :=
  nonce.1 ++ prim.encrypt key nonce.1 aad plaintext

def decryptAad (key : KeyBytes Byte) (aad blob : List Byte) : Except CryptoError (List Byte) :=
  if blob.length ≤ nonceLen then .error .invalidBlob
  else
    match prim.decrypt key (blob.take nonceLen) aad (blob.drop nonceLen) with
    | some plaintext => .ok plaintext
    | none => .error .decrypt

def wrapKey (wrapping : KeyBytes Byte) (nonce : Sized Byte nonceLen) (key : KeyBytes Byte)
    (aad : List Byte) : List Byte :=
  prim.encryptAad wrapping nonce aad key.1

def unwrapKey (wrapping : KeyBytes Byte) (blob aad : List Byte) :
    Except CryptoError (KeyBytes Byte) :=
  if blob.length ≠ wrappedKeyLen then .error .invalidBlob
  else
    match prim.decryptAad wrapping aad blob with
    | .error error => .error error
    | .ok plain => if hlength : plain.length = 32 then .ok ⟨plain, hlength⟩ else .error .invalidBlob

def vaultWrapKey (account : KeyBytes Byte) : KeyBytes Byte :=
  prim.hkdfSubkey account (prim.utf8 "obsink:v3:vault-wrap")

/-- The proof that a client holds the account key. -/
def accountVerifier (account : KeyBytes Byte) (userId : String) : KeyBytes Byte :=
  prim.hmac (prim.hkdfSubkey account (prim.utf8 "obsink:v3:verify")) (prim.utf8 userId)

def wrapUnderPassphrase (account : KeyBytes Byte) (passphrase userId : String)
    (salt : Sized Byte saltLen) (nonce : Sized Byte nonceLen) :
    Except CryptoError (AccountKeyMaterial Byte) :=
  match prim.deriveKey passphrase salt.1 with
  | .error error => .error error
  | .ok kek =>
      .ok ⟨prim.wrapKey kek nonce account (prim.utf8 userId), salt,
        prim.accountVerifier account userId⟩

/-- A first passphrase, for the fresh key `account`. -/
def createAccountKey (passphrase userId : String) (account : KeyBytes Byte)
    (salt : Sized Byte saltLen) (nonce : Sized Byte nonceLen) :
    Except CryptoError (KeyBytes Byte × AccountKeyMaterial Byte) :=
  match prim.wrapUnderPassphrase account passphrase userId salt nonce with
  | .error error => .error error
  | .ok material => .ok (account, material)

def unlockAccountKey (passphrase : String) (salt wrapped : List Byte) (userId : String) :
    Except CryptoError (KeyBytes Byte) :=
  if salt.length ≠ saltLen then .error .invalidBlob
  else
    match prim.deriveKey passphrase salt with
    | .error error => .error error
    | .ok kek => prim.unwrapKey kek wrapped (prim.utf8 userId)

def rewrapAccountKey (account : KeyBytes Byte) (passphrase userId : String)
    (salt : Sized Byte saltLen) (nonce : Sized Byte nonceLen) :
    Except CryptoError (AccountKeyMaterial Byte) :=
  prim.wrapUnderPassphrase account passphrase userId salt nonce

def wrapVaultKey (account vaultKey : KeyBytes Byte) (vaultId : String)
    (nonce : Sized Byte nonceLen) : List Byte :=
  prim.wrapKey (prim.vaultWrapKey account) nonce vaultKey (prim.utf8 vaultId)

def unwrapVaultKey (account : KeyBytes Byte) (wrapped : List Byte) (vaultId : String) :
    Except CryptoError (KeyBytes Byte) :=
  prim.unwrapKey (prim.vaultWrapKey account) wrapped (prim.utf8 vaultId)

/-- `ApprovalRequest::from_secret` -/
def approvalRequest (secret : KeyBytes Byte) : ApprovalRequest Byte :=
  ⟨secret, prim.publicKey secret⟩

/-- Eight symbols of five bits each, from the first bit of the digest on. -/
def approvalFingerprint (publicKey : KeyBytes Byte) : String :=
  let digest := (prim.sha256 (prim.utf8 "obsink:v3:approval-fingerprint" ++ publicKey.1)).1
  String.ofList ((List.range approvalFingerprintLen).map fun symbol =>
    let index := (List.range 5).foldl (fun acc offset =>
      let bit := symbol * 5 + offset
      2 * acc + (digest.getD (bit / 8) 0).toNat / 2 ^ (7 - bit % 8) % 2) 0
    fingerprintAlphabet.getD index 'A')

/-- The key between an approver and a pending device. -/
def approvalWrapKey (own peer sender recipient : KeyBytes Byte) :
    Except CryptoError (KeyBytes Byte) :=
  let shared := prim.diffieHellman own peer
  if prim.wasContributory shared then
    .ok (prim.hkdfSubkey shared (prim.utf8 "obsink:v3:device-approval" ++ sender.1 ++ recipient.1))
  else .error .keyDerivation

def approvalAad (userId deviceId : String) : List Byte :=
  prim.utf8 (userId ++ ":" ++ deviceId)

/-- `approve_device`; `seed` is the approver's fresh secret. -/
def approveDevice (account : KeyBytes Byte) (recipientPublic : List Byte)
    (typed userId deviceId : String) (seed : KeyBytes Byte) (nonce : Sized Byte nonceLen) :
    Except CryptoError (List Byte) :=
  if hlength : recipientPublic.length = approvalPublicKeyLen then
    let recipient : KeyBytes Byte := ⟨recipientPublic, hlength⟩
    if normalizeFingerprint typed ≠ prim.approvalFingerprint recipient then
      .error .fingerprintMismatch
    else
      let senderPublic := prim.publicKey seed
      match prim.approvalWrapKey seed recipient senderPublic recipient with
      | .error error => .error error
      | .ok wrapping =>
          .ok (senderPublic.1 ++
            prim.wrapKey wrapping nonce account (prim.approvalAad userId deviceId))
  else .error .invalidBlob

/-- `accept_approval` -/
def acceptApproval (request : ApprovalRequest Byte) (blob : List Byte) (userId deviceId : String) :
    Except CryptoError (KeyBytes Byte) :=
  if hlength : blob.length = approvalBlobLen then
    let senderPublic : KeyBytes Byte :=
      ⟨blob.take approvalPublicKeyLen, by
        rw [List.length_take, hlength]
        rfl⟩
    match prim.approvalWrapKey request.secret senderPublic senderPublic request.publicKey with
    | .error error => .error error
    | .ok wrapping =>
        prim.unwrapKey wrapping (blob.drop approvalPublicKeyLen)
          (prim.approvalAad userId deviceId)
  else .error .invalidBlob

/-! ## What was wrapped comes back -/

/-- What was encrypted comes back, with a tag of 16 bytes. -/
structure Sealing : Prop where
  decrypt_encrypt : ∀ key nonce aad msg,
    prim.decrypt key nonce aad (prim.encrypt key nonce aad msg) = some msg
  encrypt_length : ∀ key nonce aad msg,
    (prim.encrypt key nonce aad msg).length = msg.length + tagLen

/-- Both sides of X25519 agree. -/
def Agreeing : Prop := ∀ a b,
  prim.diffieHellman a (prim.publicKey b) = prim.diffieHellman b (prim.publicKey a)

/-- Only the key and the associated data of an encryption open it, and the
derivations do not collide. -/
structure Ideal : Prop extends prim.Sealing where
  decrypt_only : ∀ {key key' : KeyBytes Byte} {nonce aad aad' msg msg' : List Byte},
    prim.decrypt key' nonce aad' (prim.encrypt key nonce aad msg) = some msg' →
      key' = key ∧ aad' = aad
  hkdf_injective : ∀ {key key' info info'},
    prim.hkdfSubkey key info = prim.hkdfSubkey key' info' → key = key' ∧ info = info'
  hmac_injective : ∀ {key key' msg msg'},
    prim.hmac key msg = prim.hmac key' msg' → key = key' ∧ msg = msg'
  argon2_injective : ∀ {passphrase passphrase' salt salt' key},
    prim.argon2 passphrase salt = some key → prim.argon2 passphrase' salt' = some key →
      passphrase = passphrase' ∧ salt = salt'

variable {prim}

theorem createAccountKey_ok {passphrase userId : String} {account key : KeyBytes Byte}
    {salt : Sized Byte saltLen} {nonce : Sized Byte nonceLen} {material : AccountKeyMaterial Byte}
    (hcreate : prim.createAccountKey passphrase userId account salt nonce = .ok (key, material)) :
    key = account ∧ prim.wrapUnderPassphrase account passphrase userId salt nonce =
      .ok material := by
  unfold createAccountKey at hcreate
  grind

theorem wrapUnderPassphrase_ok {account : KeyBytes Byte} {passphrase userId : String}
    {salt : Sized Byte saltLen} {nonce : Sized Byte nonceLen} {material : AccountKeyMaterial Byte}
    (hwrap : prim.wrapUnderPassphrase account passphrase userId salt nonce = .ok material) :
    material.salt = salt ∧ material.verifier = prim.accountVerifier account userId := by
  unfold wrapUnderPassphrase at hwrap
  grind

theorem decryptAad_encryptAad (nonce : Sized Byte nonceLen) {key key' : KeyBytes Byte}
    {aad aad' plaintext : List Byte}
    (hlength : (prim.encrypt key nonce.1 aad plaintext).length = plaintext.length + tagLen) :
    prim.decryptAad key' aad' (prim.encryptAad key nonce aad plaintext) =
      match prim.decrypt key' nonce.1 aad' (prim.encrypt key nonce.1 aad plaintext) with
      | some plaintext => .ok plaintext
      | none => .error .decrypt := by
  obtain ⟨nonce, hnonce⟩ := nonce
  have htake : (nonce ++ prim.encrypt key nonce aad plaintext).take nonceLen = nonce := by
    rw [← hnonce, List.take_left]
  have hdrop : (nonce ++ prim.encrypt key nonce aad plaintext).drop nonceLen =
      prim.encrypt key nonce aad plaintext := by
    rw [← hnonce, List.drop_left]
  simp only [decryptAad, encryptAad, htake, hdrop]
  rw [if_neg]
  simp only [List.length_append, hnonce, hlength, tagLen]
  omega

namespace Sealing

variable (hsealing : prim.Sealing)

include hsealing

theorem wrapKey_length (wrapping : KeyBytes Byte) (nonce : Sized Byte nonceLen)
    (key : KeyBytes Byte) (aad : List Byte) :
    (prim.wrapKey wrapping nonce key aad).length = wrappedKeyLen := by
  rw [wrapKey, encryptAad, List.length_append, hsealing.encrypt_length, nonce.2, key.2]
  rfl

theorem unwrapKey_wrapKey (wrapping : KeyBytes Byte) (nonce : Sized Byte nonceLen)
    (key : KeyBytes Byte) (aad : List Byte) :
    prim.unwrapKey wrapping (prim.wrapKey wrapping nonce key aad) aad = .ok key := by
  rw [unwrapKey, if_neg (not_not.mpr (hsealing.wrapKey_length wrapping nonce key aad)), wrapKey,
    decryptAad_encryptAad nonce (hsealing.encrypt_length _ _ _ _), hsealing.decrypt_encrypt]
  simp only [key.2, dite_true]

theorem unwrapVaultKey_wrapVaultKey (account vaultKey : KeyBytes Byte) (vaultId : String)
    (nonce : Sized Byte nonceLen) :
    prim.unwrapVaultKey account (prim.wrapVaultKey account vaultKey vaultId nonce) vaultId =
      .ok vaultKey :=
  hsealing.unwrapKey_wrapKey _ _ _ _

theorem unlockAccountKey_wrapped {account : KeyBytes Byte} {passphrase userId : String}
    {salt : Sized Byte saltLen} {nonce : Sized Byte nonceLen} {material : AccountKeyMaterial Byte}
    (hwrap : prim.wrapUnderPassphrase account passphrase userId salt nonce = .ok material) :
    prim.unlockAccountKey passphrase material.salt.1 material.wrapped userId = .ok account := by
  unfold wrapUnderPassphrase at hwrap
  cases hkek : prim.deriveKey passphrase salt.1 with
  | error error =>
      rw [hkek] at hwrap
      cases hwrap
  | ok kek =>
      rw [hkek] at hwrap
      obtain rfl := Except.ok.inj hwrap
      simp only [unlockAccountKey, salt.2, hkek]
      exact hsealing.unwrapKey_wrapKey _ _ _ _

end Sealing

/-- An approval blob in its parts. -/
theorem approveDevice_eq {account : KeyBytes Byte} {recipientPublic blob : List Byte}
    {typed userId deviceId : String} {seed : KeyBytes Byte} {nonce : Sized Byte nonceLen}
    (happrove : prim.approveDevice account recipientPublic typed userId deviceId seed nonce =
      .ok blob) :
    ∃ recipient wrapping : KeyBytes Byte, recipient.1 = recipientPublic ∧
      prim.approvalWrapKey seed recipient (prim.publicKey seed) recipient = .ok wrapping ∧
      blob = (prim.publicKey seed).1 ++
        prim.wrapKey wrapping nonce account (prim.approvalAad userId deviceId) := by
  unfold approveDevice at happrove
  split at happrove
  next hlength =>
    simp only at happrove
    split at happrove
    next => cases happrove
    next =>
      cases hwrapping : prim.approvalWrapKey seed ⟨recipientPublic, hlength⟩
        (prim.publicKey seed) ⟨recipientPublic, hlength⟩ with
      | error error =>
          rw [hwrapping] at happrove
          cases happrove
      | ok wrapping =>
          rw [hwrapping] at happrove
          exact ⟨⟨recipientPublic, hlength⟩, wrapping, rfl, hwrapping,
            (Except.ok.inj happrove).symm⟩
  next => cases happrove

/-- The pending device tells the sender's key and the wrapped key apart. -/
theorem Sealing.acceptApproval_eq (hsealing : prim.Sealing) (request : ApprovalRequest Byte)
    (sender wrapping account : KeyBytes Byte) (nonce : Sized Byte nonceLen)
    (userId deviceId aad : String) :
    prim.acceptApproval request (sender.1 ++ prim.wrapKey wrapping nonce account (prim.utf8 aad))
        userId deviceId =
      match prim.approvalWrapKey request.secret sender sender request.publicKey with
      | .error error => .error error
      | .ok wrapping' =>
          prim.unwrapKey wrapping' (prim.wrapKey wrapping nonce account (prim.utf8 aad))
            (prim.approvalAad userId deviceId) := by
  obtain ⟨sender, hsender⟩ := sender
  have hlength : (sender ++ prim.wrapKey wrapping nonce account (prim.utf8 aad)).length =
      approvalBlobLen := by
    rw [List.length_append, hsender, hsealing.wrapKey_length]
    rfl
  have htake : (sender ++ prim.wrapKey wrapping nonce account (prim.utf8 aad)).take
      approvalPublicKeyLen = sender := by
    rw [approvalPublicKeyLen, ← hsender, List.take_left]
  have hdrop : (sender ++ prim.wrapKey wrapping nonce account (prim.utf8 aad)).drop
      approvalPublicKeyLen = prim.wrapKey wrapping nonce account (prim.utf8 aad) := by
    rw [approvalPublicKeyLen, ← hsender, List.drop_left]
  simp only [acceptApproval, hlength, dite_true, htake, hdrop]

/-- The device whose key the approver wrapped to gets the account key. -/
theorem Sealing.acceptApproval_approveDevice (hsealing : prim.Sealing)
    (hagreeing : prim.Agreeing) {account secret seed : KeyBytes Byte} {blob : List Byte}
    {typed userId deviceId : String} {nonce : Sized Byte nonceLen}
    (happrove : prim.approveDevice account (prim.publicKey secret).1 typed userId deviceId seed
      nonce = .ok blob) :
    prim.acceptApproval (prim.approvalRequest secret) blob userId deviceId = .ok account := by
  obtain ⟨recipient, wrapping, hrecipient, hwrapping, rfl⟩ := approveDevice_eq happrove
  obtain rfl := Subtype.ext hrecipient
  have hsame : prim.approvalWrapKey secret (prim.publicKey seed) (prim.publicKey seed)
      (prim.publicKey secret) = .ok wrapping := by
    rw [← hwrapping]
    simp only [approvalWrapKey, hagreeing secret seed]
  rw [approvalAad, hsealing.acceptApproval_eq]
  simp only [approvalRequest, hsame]
  exact hsealing.unwrapKey_wrapKey _ _ _ _

/-! ## Nothing else opens it -/

namespace Ideal

variable (hideal : prim.Ideal)

include hideal

theorem unwrapKey_only {wrapping wrapping' key key' : KeyBytes Byte} {nonce : Sized Byte nonceLen}
    {aad aad' : List Byte}
    (hunwrap : prim.unwrapKey wrapping' (prim.wrapKey wrapping nonce key aad) aad' = .ok key') :
    wrapping' = wrapping ∧ key' = key := by
  have hopens : ∃ plain, prim.decrypt wrapping' nonce.1 aad'
      (prim.encrypt wrapping nonce.1 aad key.1) = some plain := by
    rw [unwrapKey, if_neg (not_not.mpr (hideal.wrapKey_length _ _ _ _)), wrapKey,
      decryptAad_encryptAad nonce (hideal.encrypt_length _ _ _ _)] at hunwrap
    cases hplain : prim.decrypt wrapping' nonce.1 aad'
        (prim.encrypt wrapping nonce.1 aad key.1) with
    | none =>
        rw [hplain] at hunwrap
        cases hunwrap
    | some plain => exact ⟨plain, rfl⟩
  obtain ⟨plain, hplain⟩ := hopens
  obtain ⟨rfl, rfl⟩ := hideal.decrypt_only hplain
  rw [hideal.unwrapKey_wrapKey] at hunwrap
  exact ⟨rfl, (Except.ok.inj hunwrap).symm⟩

theorem accountVerifier_inj {account account' : KeyBytes Byte} {userId : String}
    (hverifier : prim.accountVerifier account userId = prim.accountVerifier account' userId) :
    account = account' :=
  (hideal.hkdf_injective (hideal.hmac_injective hverifier).1).1

/-- Only the passphrase a key was wrapped under unlocks it, and to that key. -/
theorem unlockAccountKey_only {account account' : KeyBytes Byte}
    {passphrase passphrase' userId : String} {salt : Sized Byte saltLen}
    {nonce : Sized Byte nonceLen} {material : AccountKeyMaterial Byte}
    (hwrap : prim.wrapUnderPassphrase account passphrase userId salt nonce = .ok material)
    (hunlock : prim.unlockAccountKey passphrase' material.salt.1 material.wrapped userId =
      .ok account') :
    passphrase' = passphrase ∧ account' = account := by
  unfold wrapUnderPassphrase deriveKey at hwrap
  cases hkek : prim.argon2 passphrase salt.1 with
  | none =>
      rw [hkek] at hwrap
      cases hwrap
  | some kek =>
      rw [hkek] at hwrap
      obtain rfl := Except.ok.inj hwrap
      simp only [unlockAccountKey, salt.2, deriveKey] at hunlock
      cases hkek' : prim.argon2 passphrase' salt.1 with
      | none =>
          rw [hkek'] at hunlock
          cases hunlock
      | some kek' =>
          rw [hkek'] at hunlock
          obtain ⟨rfl, hkey⟩ := hideal.unwrapKey_only hunlock
          exact ⟨(hideal.argon2_injective hkek' hkek).1, hkey⟩

/-- A device that can open an approval blob gets the key the approver wrapped. -/
theorem acceptApproval_only {account account' seed : KeyBytes Byte}
    {recipientPublic blob : List Byte} {typed userId deviceId deviceId' : String}
    {nonce : Sized Byte nonceLen} {request : ApprovalRequest Byte}
    (happrove : prim.approveDevice account recipientPublic typed userId deviceId seed nonce =
      .ok blob)
    (haccept : prim.acceptApproval request blob userId deviceId' = .ok account') :
    account' = account := by
  obtain ⟨recipient, wrapping, -, -, rfl⟩ := approveDevice_eq happrove
  rw [approvalAad, hideal.acceptApproval_eq] at haccept
  cases hwrapping : prim.approvalWrapKey request.secret (prim.publicKey seed)
      (prim.publicKey seed) request.publicKey with
  | error error =>
      rw [hwrapping] at haccept
      cases haccept
  | ok wrapping' =>
      rw [hwrapping] at haccept
      exact (hideal.unwrapKey_only haccept).2

end Ideal

end Primitives

/-! ## A small instance for concrete runs -/

/-- A byte that can hold what it was computed from. -/
inductive Term where
  | byte (value : Nat)
  | text (value : String)
  | pair (left right : Term)
  deriving DecidableEq, Repr

namespace Term

def list : List Term → Term
  | [] => .byte 0
  | first :: rest => .pair first (list rest)

theorem list_injective : Function.Injective list := by
  intro a b hab
  induction a generalizing b with
  | nil =>
      cases b with
      | nil => rfl
      | cons => cases hab
  | cons first rest ih =>
      cases b with
      | nil => cases hab
      | cons =>
          obtain ⟨rfl, hrest⟩ := Term.pair.inj hab
          rw [ih hrest]

def weight : Term → Nat
  | .byte value => value
  | .text value => value.length
  | .pair left right => left.weight + right.weight + 1

def zeros (n : Nat) : List Term := List.replicate n (.byte 0)

/-- A key that holds one value. -/
def key (value : Term) : KeyBytes Term := ⟨value :: zeros 31, rfl⟩

theorem key_injective : Function.Injective key := by
  intro a b hab
  exact (List.cons.inj (congrArg Subtype.val hab)).1

/-- The tag of an encryption. -/
def tag (key nonce aad msg : List Term) : List Term :=
  list [.byte 1, list key, list nonce, list aad, list msg] :: zeros 15

end Term

open Term in
/-- Every value says how it was computed. -/
def symbolic : Primitives Term where
  utf8 := fun text => [.text text]
  encrypt := fun key nonce aad msg => msg ++ tag key.1 nonce aad msg
  decrypt := fun key nonce aad ciphertext =>
    let msg := ciphertext.take (ciphertext.length - tagLen)
    if ciphertext.drop (ciphertext.length - tagLen) = tag key.1 nonce aad msg then some msg
    else none
  hkdfSubkey := fun master info => key (list [.byte 2, list master.1, list info])
  hmac := fun master msg => key (list [.byte 3, list master.1, list msg])
  argon2 := fun passphrase salt =>
    if salt.length < 8 then none else some (key (list [.byte 4, .text passphrase, list salt]))
  sha256 := fun _ => ⟨List.replicate 32 0, rfl⟩
  publicKey := fun secret => key (.pair (.byte 5) (list secret.1))
  diffieHellman := fun own peer =>
    match peer.1.head? with
    | some (.pair (.byte 5) secret) =>
        key (.pair (.byte 6) (.byte ((list own.1).weight + secret.weight)))
    | _ => key (.byte 0)
  wasContributory := fun shared => shared ≠ key (.byte 0)

theorem symbolic_decrypt (key key' : KeyBytes Term) (nonce aad aad' msg : List Term) :
    symbolic.decrypt key' nonce aad' (symbolic.encrypt key nonce aad msg) =
      if Term.tag key.1 nonce aad msg = Term.tag key'.1 nonce aad' msg then some msg else none := by
  have hlength : (msg ++ Term.tag key.1 nonce aad msg).length - tagLen = msg.length := by
    simp [Term.tag, Term.zeros, tagLen]
  simp only [symbolic, hlength, List.take_left, List.drop_left]

theorem symbolic_ideal : symbolic.Ideal where
  decrypt_encrypt := by
    intro key nonce aad msg
    rw [symbolic_decrypt, if_pos rfl]
  encrypt_length := by
    intro key nonce aad msg
    simp [symbolic, Term.tag, Term.zeros, tagLen]
  decrypt_only := by
    intro key key' nonce aad aad' msg msg' hdecrypt
    rw [symbolic_decrypt] at hdecrypt
    split at hdecrypt
    next htag =>
      have hlist := Term.list_injective (List.cons.inj htag).1
      simp only [List.cons.injEq, and_true, true_and] at hlist
      obtain ⟨hkey, haad⟩ := hlist
      exact ⟨Subtype.ext (Term.list_injective hkey.symm), Term.list_injective haad.symm⟩
    next => cases hdecrypt
  hkdf_injective := by
    intro key key' info info' hsubkey
    have hlist := Term.list_injective (Term.key_injective hsubkey)
    simp only [List.cons.injEq, and_true, true_and] at hlist
    exact ⟨Subtype.ext (Term.list_injective hlist.1), Term.list_injective hlist.2⟩
  hmac_injective := by
    intro key key' msg msg' hmac
    have hlist := Term.list_injective (Term.key_injective hmac)
    simp only [List.cons.injEq, and_true, true_and] at hlist
    exact ⟨Subtype.ext (Term.list_injective hlist.1), Term.list_injective hlist.2⟩
  argon2_injective := by
    intro passphrase passphrase' salt salt' kek hkek hkek'
    simp only [symbolic] at hkek hkek'
    split at hkek
    next => cases hkek
    next =>
      split at hkek'
      next => cases hkek'
      next =>
        obtain rfl := Option.some.inj hkek
        have hlist := Term.list_injective (Term.key_injective (Option.some.inj hkek'))
        simp only [List.cons.injEq, and_true, true_and, Term.text.injEq] at hlist
        exact ⟨hlist.1.symm, Term.list_injective hlist.2.symm⟩

theorem symbolic_agreeing : symbolic.Agreeing := by
  intro a b
  simp [symbolic, Term.key, Nat.add_comm]

end ObSink
