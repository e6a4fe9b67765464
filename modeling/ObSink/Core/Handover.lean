import ObSink.Core.Keys
import ObSink.Server.Devices

/-! # An approval hands over one key in one context

`approve_device` and `accept_approval` of `core/src/crypto.rs`. The two sides
derive one wrapping key, from both public keys; the associated data names the
user and the device. Any approver may wrap any key to a request, so a blob is
held against one that was made for the request, and differs from it in its tag
or before its tag.
-/

namespace ObSink

open Aead (nonceLen)

namespace Primitives

variable {Byte : Type} (prim : Primitives Byte)

/-! ## What the primitives promise -/

/-- Only an encryption decrypts. It is a stream-ciphered message and a tag that
no other encryption has, and derived keys do not collide. -/
structure Authentic : Prop extends prim.Sealing where
  decrypt_sound : ∀ {key nonce aad ciphertext msg},
    prim.decrypt key nonce aad ciphertext = some msg →
      ciphertext = prim.encrypt key nonce aad msg
  tag_injective : ∀ {key key' nonce nonce' aad aad' msg msg'},
    (prim.encrypt key nonce aad msg).drop msg.length =
        (prim.encrypt key' nonce' aad' msg').drop msg'.length →
      key = key' ∧ nonce = nonce' ∧ aad = aad' ∧ msg = msg'
  stream_injective : ∀ {key nonce aad msg msg'},
    (prim.encrypt key nonce aad msg).take msg.length =
        (prim.encrypt key nonce aad msg').take msg'.length → msg = msg'
  hkdf_injective : ∀ {key key' info info'},
    prim.hkdfSubkey key info = prim.hkdfSubkey key' info' → key = key' ∧ info = info'

/-- X25519 between honest keys: both sides agree, and on no all-zero secret. -/
structure Exchanging : Prop where
  agreeing : prim.Agreeing
  contributory : ∀ a b, prim.wasContributory (prim.diffieHellman a (prim.publicKey b)) = true

/-! ## A blob in its parts -/

/-- The key an approver and a pending device share. -/
def pairKey (shared sender recipient : KeyBytes Byte) : KeyBytes Byte :=
  prim.hkdfSubkey shared (prim.utf8 "obsink:v3:device-approval" ++ sender.1 ++ recipient.1)

def approvalBlob (shared sender recipient : KeyBytes Byte) (nonce : Sized Byte nonceLen)
    (aad : List Byte) (account : KeyBytes Byte) : List Byte :=
  sender.1 ++ (nonce.1 ++ prim.encrypt (prim.pairKey shared sender recipient) nonce.1 aad account.1)

/-- Where the tag of an approval blob starts. -/
def tagStart : Nat := approvalPublicKeyLen + nonceLen + 32

variable {prim}

theorem pairKey_inj (hprim : prim.Authentic)
    {shared shared' sender sender' recipient recipient' : KeyBytes Byte}
    (hkey : prim.pairKey shared sender recipient = prim.pairKey shared' sender' recipient') :
    sender = sender' ∧ recipient = recipient' := by
  have hinfo := (hprim.hkdf_injective hkey).2
  rw [List.append_assoc, List.append_assoc] at hinfo
  have hpublic := List.append_cancel_left hinfo
  obtain ⟨hsender, hrecipient⟩ := List.append_inj hpublic (by rw [sender.2, sender'.2])
  exact ⟨Subtype.ext hsender, Subtype.ext hrecipient⟩

section

variable (shared sender recipient : KeyBytes Byte) (nonce : Sized Byte nonceLen)
  (aad : List Byte) (account : KeyBytes Byte)

theorem approvalBlob_take :
    (prim.approvalBlob shared sender recipient nonce aad account).take tagStart =
      sender.1 ++ (nonce.1 ++
        (prim.encrypt (prim.pairKey shared sender recipient) nonce.1 aad account.1).take
          account.1.length) := by
  have hsender := sender.2
  have hnonce := nonce.2
  rw [approvalBlob, List.take_append, List.take_append, List.take_of_length_le,
    List.take_of_length_le, hsender, hnonce, account.2]
  · rfl
  · rw [hnonce, hsender]
    decide
  · rw [hsender]
    decide

theorem approvalBlob_drop :
    (prim.approvalBlob shared sender recipient nonce aad account).drop tagStart =
      (prim.encrypt (prim.pairKey shared sender recipient) nonce.1 aad account.1).drop
        account.1.length := by
  have hsender := sender.2
  have hnonce := nonce.2
  rw [approvalBlob, List.drop_append, List.drop_append, List.drop_eq_nil_of_le,
    List.drop_eq_nil_of_le, hsender, hnonce, account.2]
  · rfl
  · rw [hnonce, hsender]
    decide
  · rw [hsender]
    decide

end

/-- What an approver returns. -/
theorem approveDevice_ok (account : KeyBytes Byte) {recipient seed : KeyBytes Byte}
    {typed : String} (userId deviceId : String) (nonce : Sized Byte nonceLen)
    (hcontributory : prim.wasContributory (prim.diffieHellman seed recipient) = true)
    (htyped : normalizeFingerprint typed = prim.approvalFingerprint recipient) :
    prim.approveDevice account recipient.1 typed userId deviceId seed nonce =
      .ok (prim.approvalBlob (prim.diffieHellman seed recipient) (prim.publicKey seed) recipient
        nonce (prim.approvalAad userId deviceId) account) := by
  have hlength : recipient.1.length = approvalPublicKeyLen := recipient.2
  simp only [approveDevice, hlength, dite_true, htyped, ne_eq, not_true_eq_false, if_false,
    approvalWrapKey, hcontributory, if_true, wrapKey, encryptAad, approvalBlob, pairKey]

theorem approveDevice_refuses {account recipient seed : KeyBytes Byte}
    {typed userId deviceId : String} {nonce : Sized Byte nonceLen}
    (htyped : normalizeFingerprint typed ≠ prim.approvalFingerprint recipient) :
    prim.approveDevice account recipient.1 typed userId deviceId seed nonce =
      .error .fingerprintMismatch := by
  have hlength : recipient.1.length = approvalPublicKeyLen := recipient.2
  simp only [approveDevice, hlength, dite_true, htyped, ne_eq, not_false_eq_true, if_true]

theorem unwrapKey_sound (hprim : prim.Authentic) {wrapping key : KeyBytes Byte}
    {blob aad : List Byte} (hunwrap : prim.unwrapKey wrapping blob aad = .ok key) :
    ∃ nonce : Sized Byte nonceLen, blob = nonce.1 ++ prim.encrypt wrapping nonce.1 aad key.1 := by
  unfold unwrapKey at hunwrap
  split at hunwrap
  next => cases hunwrap
  next hlength =>
    rw [ne_eq, not_not] at hlength
    have hnonce : (blob.take nonceLen).length = nonceLen := by
      rw [List.length_take, hlength]
      rfl
    unfold decryptAad at hunwrap
    rw [if_neg (by rw [hlength]; decide)] at hunwrap
    cases hplain : prim.decrypt wrapping (blob.take nonceLen) aad (blob.drop nonceLen) with
    | none =>
        rw [hplain] at hunwrap
        cases hunwrap
    | some plain =>
        rw [hplain] at hunwrap
        simp only at hunwrap
        split at hunwrap
        next =>
          obtain rfl := Except.ok.inj hunwrap
          refine ⟨⟨blob.take nonceLen, hnonce⟩, ?_⟩
          rw [← hprim.decrypt_sound hplain, List.take_append_drop]
        next => cases hunwrap

/-- A pending device opens a blob only if it was made for its request, user and device. -/
theorem acceptApproval_sound (hprim : prim.Authentic) {request : ApprovalRequest Byte}
    {blob : List Byte} {userId deviceId : String} {account : KeyBytes Byte}
    (haccept : prim.acceptApproval request blob userId deviceId = .ok account) :
    ∃ (sender : KeyBytes Byte) (nonce : Sized Byte nonceLen),
      blob = prim.approvalBlob (prim.diffieHellman request.secret sender) sender request.publicKey
        nonce (prim.approvalAad userId deviceId) account := by
  unfold acceptApproval at haccept
  split at haccept
  next hlength =>
    simp only [approvalWrapKey] at haccept
    split at haccept
    next => cases haccept
    next wrapping hwrapping =>
      split at hwrapping
      next =>
        obtain rfl := Except.ok.inj hwrapping
        obtain ⟨nonce, hblob⟩ := unwrapKey_sound hprim haccept
        have hsender : (blob.take approvalPublicKeyLen).length = 32 := by
          rw [List.length_take, hlength]
          rfl
        refine ⟨⟨blob.take approvalPublicKeyLen, hsender⟩, nonce, ?_⟩
        rw [approvalBlob, pairKey, ← hblob, List.take_append_drop]
      next => cases hwrapping
  next => cases haccept

/-! ## Two blobs -/

/-- A blob's tag says all the blob was made from. -/
theorem approvalBlob_drop_inj (hprim : prim.Authentic)
    {shared shared' sender sender' recipient recipient' account account' : KeyBytes Byte}
    {nonce nonce' : Sized Byte nonceLen} {aad aad' : List Byte}
    (hdrop : (prim.approvalBlob shared sender recipient nonce aad account).drop tagStart =
      (prim.approvalBlob shared' sender' recipient' nonce' aad' account').drop tagStart) :
    prim.pairKey shared sender recipient = prim.pairKey shared' sender' recipient' ∧
      nonce = nonce' ∧ aad = aad' ∧ account = account' := by
  rw [approvalBlob_drop, approvalBlob_drop] at hdrop
  obtain ⟨hkey, hnonce, haad, haccount⟩ := hprim.tag_injective hdrop
  exact ⟨hkey, Subtype.ext hnonce, haad, Subtype.ext haccount⟩

/-- Before its tag it says the sender, the nonce and, under one key, the account key. -/
theorem approvalBlob_take_inj (hprim : prim.Authentic)
    {secret sender sender' recipient account account' : KeyBytes Byte}
    {nonce nonce' : Sized Byte nonceLen} {aad : List Byte}
    (htake : (prim.approvalBlob (prim.diffieHellman secret sender) sender recipient nonce aad
        account).take tagStart =
      (prim.approvalBlob (prim.diffieHellman secret sender') sender' recipient nonce' aad
        account').take tagStart) :
    sender = sender' ∧ nonce = nonce' ∧ account = account' := by
  rw [approvalBlob_take, approvalBlob_take] at htake
  obtain ⟨hsender, hrest⟩ := List.append_inj htake (by rw [sender.2, sender'.2])
  obtain rfl := Subtype.ext hsender
  obtain ⟨hnonce, hstream⟩ := List.append_inj hrest (by rw [nonce.2, nonce'.2])
  obtain rfl := Subtype.ext hnonce
  exact ⟨rfl, rfl, Subtype.ext (hprim.stream_injective hstream)⟩

/-! ## The handover -/

/-- What a pending device relies on of a blob that answers its request. -/
structure OpensInContext (prim : Primitives Byte) (account secret : KeyBytes Byte)
    (userId deviceId : String) (blob : List Byte) : Prop where
  opens : prim.acceptApproval (prim.approvalRequest secret) blob userId deviceId = .ok account
  /-- Two secrets with one public key are one request. -/
  elsewhere : ∀ (secret' : KeyBytes Byte) (userId' deviceId' : String),
    Server.validDeviceId deviceId' →
      prim.publicKey secret' ≠ prim.publicKey secret ∨ userId' ≠ userId ∨ deviceId' ≠ deviceId →
        ∃ error, prim.acceptApproval (prim.approvalRequest secret') blob userId' deviceId' =
          .error error
  changed_byte : ∀ (i : Nat) (byte : Byte), blob.set i byte ≠ blob →
    ∃ error, prim.acceptApproval (prim.approvalRequest secret) (blob.set i byte) userId deviceId =
      .error error
  /-- A change on both sides could make it another approver's blob. -/
  changed : ∀ blob', blob' ≠ blob →
    blob'.take tagStart = blob.take tagStart ∨ blob'.drop tagStart = blob.drop tagStart →
      ∃ error, prim.acceptApproval (prim.approvalRequest secret) blob' userId deviceId =
        .error error

section

variable (hprim : prim.Authentic) (hexchange : prim.Exchanging)
  {account secret seed : KeyBytes Byte} {nonce : Sized Byte nonceLen}
  {typed userId deviceId : String} {blob : List Byte}
  (happrove : prim.approveDevice account (prim.publicKey secret).1 typed userId deviceId seed
    nonce = .ok blob)

include hexchange happrove

theorem approved_blob_eq :
    blob = prim.approvalBlob (prim.diffieHellman secret (prim.publicKey seed))
      (prim.publicKey seed) (prim.publicKey secret) nonce (prim.approvalAad userId deviceId)
      account := by
  by_cases htyped : normalizeFingerprint typed = prim.approvalFingerprint (prim.publicKey secret)
  · rw [approveDevice_ok account userId deviceId nonce (hexchange.contributory seed secret)
      htyped] at happrove
    rw [hexchange.agreeing]
    exact (Except.ok.inj happrove).symm
  · rw [approveDevice_refuses htyped] at happrove
    cases happrove

include hprim

/-- Who opens a blob that was made for the request of `secret`. -/
theorem acceptApproval_iff (hutf8 : Function.Injective prim.utf8)
    {secret' account' : KeyBytes Byte} {userId' deviceId' : String}
    (hdevice : Server.validDeviceId deviceId) (hdevice' : Server.validDeviceId deviceId') :
    prim.acceptApproval (prim.approvalRequest secret') blob userId' deviceId' = .ok account' ↔
      prim.publicKey secret' = prim.publicKey secret ∧ userId' = userId ∧ deviceId' = deviceId ∧
        account' = account := by
  constructor
  · intro haccept
    obtain ⟨sender, nonce', hblob⟩ := acceptApproval_sound hprim haccept
    rw [approved_blob_eq hexchange happrove] at hblob
    obtain ⟨hkey, -, haad, haccount⟩ := approvalBlob_drop_inj hprim (congrArg _ hblob)
    -- the device id starts after the last `:`, whatever the user id holds
    obtain ⟨huser, hid⟩ := Text.colon_join_inj_right
      (Server.colon_notMem_of_validDeviceId hdevice)
      (Server.colon_notMem_of_validDeviceId hdevice') (hutf8 haad)
    exact ⟨(pairKey_inj hprim hkey).2.symm, huser.symm, hid.symm, haccount.symm⟩
  · rintro ⟨hpublic, rfl, rfl, rfl⟩
    rw [← hpublic] at happrove
    exact hprim.toSealing.acceptApproval_approveDevice hexchange.agreeing happrove

/-- A blob that was changed on one side only of where its tag starts does not open. -/
theorem acceptApproval_changed {blob' : List Byte} (hchanged : blob' ≠ blob)
    (hside : blob'.take tagStart = blob.take tagStart ∨ blob'.drop tagStart = blob.drop tagStart) :
    ∃ error, prim.acceptApproval (prim.approvalRequest secret) blob' userId deviceId =
      .error error := by
  cases haccept : prim.acceptApproval (prim.approvalRequest secret) blob' userId deviceId with
  | error error => exact ⟨error, rfl⟩
  | ok account' =>
      exfalso
      apply hchanged
      obtain ⟨sender, nonce', rfl⟩ := acceptApproval_sound hprim haccept
      obtain rfl := approved_blob_eq hexchange happrove
      obtain htake | hdrop := hside
      · obtain ⟨rfl, rfl, rfl⟩ := approvalBlob_take_inj hprim htake
        rfl
      · obtain ⟨hkey, rfl, -, rfl⟩ := approvalBlob_drop_inj hprim hdrop
        obtain rfl := (pairKey_inj hprim hkey).1
        rfl

theorem opensInContext_of_approve (hutf8 : Function.Injective prim.utf8)
    (hdevice : Server.validDeviceId deviceId) :
    OpensInContext prim account secret userId deviceId blob where
  opens := (acceptApproval_iff hprim hexchange happrove hutf8 hdevice hdevice).mpr
    ⟨rfl, rfl, rfl, rfl⟩
  elsewhere := by
    intro secret' userId' deviceId' hdevice' hother
    cases haccept : prim.acceptApproval (prim.approvalRequest secret') blob userId' deviceId' with
    | error error => exact ⟨error, rfl⟩
    | ok account' =>
        obtain ⟨hpublic, huser, hid, -⟩ :=
          (acceptApproval_iff hprim hexchange happrove hutf8 hdevice hdevice').mp haccept
        simp [hpublic, huser, hid] at hother
  changed_byte := by
    intro i byte hchanged
    apply acceptApproval_changed hprim hexchange happrove hchanged
    obtain hbefore | htag := Nat.lt_or_ge i tagStart
    · exact .inr (List.drop_set_of_lt hbefore)
    · exact .inl (List.take_set_of_le htag)
  changed := by
    intro blob' hchanged hside
    exact acceptApproval_changed hprim hexchange happrove hchanged hside

end

/-- An approval hands over the account key, and only in its context. -/
theorem approval_hands_over (hprim : prim.Authentic) (hexchange : prim.Exchanging)
    (hutf8 : Function.Injective prim.utf8) (account secret seed : KeyBytes Byte)
    (nonce : Sized Byte nonceLen) (typed userId deviceId : String)
    (hdevice : Server.validDeviceId deviceId) :
    (normalizeFingerprint typed = prim.approvalFingerprint (prim.publicKey secret) →
      ∃ blob, prim.approveDevice account (prim.publicKey secret).1 typed userId deviceId seed
          nonce = .ok blob ∧
        OpensInContext prim account secret userId deviceId blob) ∧
      (normalizeFingerprint typed ≠ prim.approvalFingerprint (prim.publicKey secret) →
        prim.approveDevice account (prim.publicKey secret).1 typed userId deviceId seed nonce =
          .error .fingerprintMismatch) := by
  refine ⟨?_, approveDevice_refuses⟩
  intro htyped
  have happrove := approveDevice_ok account userId deviceId nonce
    (hexchange.contributory seed secret) htyped
  exact ⟨_, happrove, opensInContext_of_approve hprim hexchange happrove hutf8 hdevice⟩

end Primitives

/-! ## The symbolic instance -/

theorem symbolic_authentic : symbolic.Authentic where
  toSealing := symbolic_ideal.toSealing
  decrypt_sound := by
    intro key nonce aad ciphertext msg hdecrypt
    simp only [symbolic] at hdecrypt ⊢
    split at hdecrypt
    next htag =>
      obtain rfl := Option.some.inj hdecrypt
      rw [← htag, List.take_append_drop]
    next => cases hdecrypt
  tag_injective := by
    intro key key' nonce nonce' aad aad' msg msg' htag
    simp only [symbolic, List.drop_left] at htag
    have hlist := Term.list_injective (List.cons.inj htag).1
    simp only [List.cons.injEq, and_true, true_and] at hlist
    exact ⟨Subtype.ext (Term.list_injective hlist.1), Term.list_injective hlist.2.1,
      Term.list_injective hlist.2.2.1, Term.list_injective hlist.2.2.2⟩
  stream_injective := by
    intro key nonce aad msg msg' hstream
    simpa only [symbolic, List.take_left] using hstream
  hkdf_injective := symbolic_ideal.hkdf_injective

theorem symbolic_exchanging : symbolic.Exchanging where
  agreeing := symbolic_agreeing
  contributory := by
    intro a b
    simp [symbolic, Term.key, Subtype.ext_iff]

theorem symbolic_utf8_injective : Function.Injective symbolic.utf8 := by
  intro text text' hutf8
  exact Term.text.inj (List.cons.inj hutf8).1

/-- A fingerprint typed in lower case, in two halves. -/
theorem symbolic_hands_over :
    ∃ blob, symbolic.approveDevice (Term.key (.byte 1))
        (symbolic.publicKey (Term.key (.byte 2))).1 "aaaa-aaaa" "usr_a" "laptop"
        (Term.key (.byte 3)) ⟨Term.zeros Aead.nonceLen, rfl⟩ = .ok blob ∧
      symbolic.OpensInContext (Term.key (.byte 1)) (Term.key (.byte 2)) "usr_a" "laptop" blob :=
  (Primitives.approval_hands_over symbolic_authentic symbolic_exchanging symbolic_utf8_injective
    _ _ _ _ _ _ _ (by decide)).1 (by decide)

end ObSink
