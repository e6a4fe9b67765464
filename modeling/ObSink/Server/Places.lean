import ObSink.Core.Crypto
import ObSink.Server.Devices

/-! # Where sealed data opens

The sealed columns and the lookup indexes of `server/src/crypto.rs`, beside the
blobs. Every seal names its place in one joined text. A vault id has a fixed
shape, a column name stands before its first `:`, and a device id holds no `:`,
so the joined texts tell all places apart.
-/

namespace ObSink.Server

open Aead (Nonce nonceLen)

/-! ## Sealed columns and indexes -/

/-- The other two sub-keys. -/
structure SubKeys extends ServerKeys where
  fieldEnc : Bytes
  indexMac : Bytes

def fieldAad (table column rowId : String) : Bytes :=
  utf8 (table ++ "." ++ column ++ ":" ++ rowId)

def sealField (aead : Aead) (keys : SubKeys) (nonce : Nonce) (table column rowId value : String) :
    Bytes :=
  «seal» aead keys.fieldEnc nonce (fieldAad table column rowId) (utf8 value)

def openField (aead : Aead) (keys : SubKeys) (table column rowId : String) (sealed : Bytes) :
    Except CryptoError String := do
  let bytes ← «open» aead keys.fieldEnc (fieldAad table column rowId) sealed
  match fromUtf8 bytes with
  | some value => .ok value
  | none => .error .malformed

/-- The keyed index of an equality lookup. -/
def index (hmac : (key msg : Bytes) → Bytes) (keys : SubKeys) (kind value : String) : Bytes :=
  hmac keys.indexMac (utf8 kind ++ utf8 ":" ++ utf8 value)

/-- The kinds that `index` is called with. -/
def indexKinds : List String := ["email", "otp"]

/-- A sealed column and the row it is in. -/
inductive NameField where
  | userEmail (userId : String)
  | vaultName (vaultId : String)
  | deviceName (userId deviceId : String)
  deriving DecidableEq, Repr

namespace NameField

def table : NameField → String
  | userEmail _ => "users"
  | vaultName _ => "vaults"
  | deviceName _ _ => "devices"

def column : NameField → String
  | userEmail _ => "email"
  | vaultName _ => "name"
  | deviceName _ _ => "name"

def rowId : NameField → String
  | userEmail userId => userId
  | vaultName vaultId => vaultId
  | deviceName userId deviceId => userId ++ ":" ++ deviceId

/-- A device row's id went through `DeviceBody::validate`. -/
def valid : NameField → Bool
  | deviceName _ deviceId => validDeviceId deviceId
  | _ => true

def aad (field : NameField) : Bytes := fieldAad field.table field.column field.rowId

def sealValue (aead : Aead) (keys : SubKeys) (nonce : Nonce) (field : NameField) (value : String) :
    Bytes :=
  sealField aead keys nonce field.table field.column field.rowId value

def openValue (aead : Aead) (keys : SubKeys) (field : NameField) (sealed : Bytes) :
    Except CryptoError String :=
  openField aead keys field.table field.column field.rowId sealed

theorem openValue_error {aead : Aead} {keys : SubKeys} {field : NameField} {sealed : Bytes}
    {error : CryptoError} (hopen : «open» aead keys.fieldEnc field.aad sealed = .error error) :
    field.openValue aead keys sealed = .error error := by
  rw [aad] at hopen
  rw [openValue, openField, hopen]
  rfl

theorem openValue_utf8 {aead : Aead} {keys : SubKeys} {field : NameField} {sealed : Bytes}
    {value : String} (hopen : «open» aead keys.fieldEnc field.aad sealed = .ok (utf8 value)) :
    field.openValue aead keys sealed = .ok value := by
  rw [aad] at hopen
  rw [openValue, openField, hopen]
  change (match fromUtf8 (utf8 value) with
    | some value => Except.ok value
    | none => Except.error CryptoError.malformed) = .ok value
  rw [fromUtf8_utf8]

end NameField

/-- `seal_name` -/
def sealName (aead : Aead) (keys : SubKeys) (nonce : Nonce) (userId deviceId name : String) :
    Bytes :=
  sealField aead keys nonce "devices" "name" (userId ++ ":" ++ deviceId) name

theorem sealName_eq (aead : Aead) (keys : SubKeys) (nonce : Nonce)
    (userId deviceId name : String) :
    sealName aead keys nonce userId deviceId name =
      (NameField.deviceName userId deviceId).sealValue aead keys nonce name := rfl

/-! ## Joined texts -/

theorem toList_loop (bytes : ByteArray) (i : Nat) (acc : Bytes) :
    ByteArray.toList.loop bytes i acc = acc.reverse ++ bytes.data.toList.drop i := by
  induction hleft : bytes.size - i generalizing i acc with
  | zero =>
      rw [ByteArray.toList.loop, if_neg (by omega), List.drop_eq_nil_of_le, List.append_nil]
      rw [Array.length_toList]
      have hsize : bytes.data.size = bytes.size := rfl
      omega
  | succ left ih =>
      have hlt : i < bytes.data.toList.length := by
        rw [Array.length_toList]
        have hsize : bytes.data.size = bytes.size := rfl
        omega
      have hget : bytes.get! i = bytes.data.toList[i] := by
        rw [Array.length_toList] at hlt
        rw [ByteArray.get!, getElem!_pos bytes.data i hlt, Array.getElem_toList]
      rw [ByteArray.toList.loop, if_pos (by omega), ih (i + 1) _ (by omega),
        List.drop_eq_getElem_cons hlt, hget, List.reverse_cons, List.append_assoc]
      rfl

theorem blobAad_eq (vaultId path : String) :
    blobAad vaultId path = utf8 ("blob:" ++ vaultId ++ ":" ++ path) := by
  rw [blobAad, ByteArray.toList, toList_loop]
  rfl

theorem colon_notMem_of_validVaultId {vaultId : String} (hvalid : validVaultId vaultId) :
    ':' ∉ vaultId.toList := by
  unfold validVaultId at hvalid
  split at hvalid
  next rest hrest =>
    simp only [Bool.and_eq_true, List.all_eq_true] at hvalid
    rw [← List.isPrefixOf?_eq_some_iff_append_eq.mp hrest, List.mem_append, not_or]
    refine ⟨by decide, ?_⟩
    intro hcolon
    have hchar := hvalid.2 ':' hcolon
    revert hchar
    decide
  next => cases hvalid

/-- A joined name comes apart at its first `:`. -/
theorem join_inj {left left' right right' : String} (hleft : ':' ∉ left.toList)
    (hleft' : ':' ∉ left'.toList)
    (hjoin : utf8 (left ++ ":" ++ right) = utf8 (left' ++ ":" ++ right')) :
    left = left' ∧ right = right' :=
  Text.colon_join_inj hleft hleft' (utf8_injective hjoin)

theorem blobAad_join (vaultId path : String) :
    blobAad vaultId path = utf8 ("blob" ++ ":" ++ (vaultId ++ ":" ++ path)) := by
  have hblob : "blob:" = "blob" ++ ":" := by decide
  rw [blobAad_eq, hblob, String.append_assoc, String.append_assoc, String.append_assoc,
    String.append_assoc, String.append_assoc]

theorem blobAad_inj {vaultId vaultId' path path' : String} (hvault : validVaultId vaultId)
    (hvault' : validVaultId vaultId') (haad : blobAad vaultId path = blobAad vaultId' path') :
    vaultId = vaultId' ∧ path = path' := by
  rw [blobAad_join, blobAad_join] at haad
  have hplace := (join_inj (by decide) (by decide) haad).2
  exact join_inj (colon_notMem_of_validVaultId hvault) (colon_notMem_of_validVaultId hvault')
    (congrArg utf8 hplace)

namespace NameField

/-- A column's name holds no `:`. -/
theorem colon_notMem_column (field : NameField) :
    ':' ∉ (field.table ++ "." ++ field.column).toList := by
  cases field <;> simp only [table, column] <;> decide

theorem aad_inj {field field' : NameField} (hvalid : field.valid) (hvalid' : field'.valid)
    (haad : field.aad = field'.aad) : field = field' := by
  obtain ⟨hcolumn, hrow⟩ := join_inj field.colon_notMem_column field'.colon_notMem_column haad
  cases field with
  | userEmail userId =>
      cases field' with
      | userEmail userId' => exact congrArg userEmail hrow
      | vaultName vaultId' => exact absurd hcolumn (by simp only [table, column]; decide)
      | deviceName userId' deviceId' => exact absurd hcolumn (by simp only [table, column]; decide)
  | vaultName vaultId =>
      cases field' with
      | userEmail userId' => exact absurd hcolumn (by simp only [table, column]; decide)
      | vaultName vaultId' => exact congrArg vaultName hrow
      | deviceName userId' deviceId' => exact absurd hcolumn (by simp only [table, column]; decide)
  | deviceName userId deviceId =>
      cases field' with
      | userEmail userId' => exact absurd hcolumn (by simp only [table, column]; decide)
      | vaultName vaultId' => exact absurd hcolumn (by simp only [table, column]; decide)
      | deviceName userId' deviceId' =>
          -- the user id may hold anything, the device id holds no `:`
          obtain ⟨rfl, rfl⟩ := Text.colon_join_inj_right (colon_notMem_of_validDeviceId hvalid)
            (colon_notMem_of_validDeviceId hvalid') hrow
          rfl

theorem aad_ne_blobAad (field : NameField) (vaultId path : String) :
    field.aad ≠ blobAad vaultId path := by
  intro haad
  rw [blobAad_join] at haad
  have hcolumn := (join_inj field.colon_notMem_column (by decide) haad).1
  revert hcolumn
  cases field <;> simp only [table, column] <;> decide

end NameField

theorem colon_notMem_of_mem_indexKinds {kind : String} (hkind : kind ∈ indexKinds) :
    ':' ∉ kind.toList := by
  simp only [indexKinds, List.mem_cons, List.not_mem_nil, or_false] at hkind
  rcases hkind with rfl | rfl <;> decide

/-- An index keeps kinds and values apart as long as the kinds hold no `:`. -/
theorem index_inj (hmac : (key msg : Bytes) → Bytes)
    (hhmac : ∀ {key msg msg'}, hmac key msg = hmac key msg' → msg = msg') (keys : SubKeys)
    {kind kind' value value' : String} (hkind : ':' ∉ kind.toList) (hkind' : ':' ∉ kind'.toList)
    (hindex : index hmac keys kind value = index hmac keys kind' value') :
    kind = kind' ∧ value = value' := by
  have hmsg := hhmac hindex
  simp only [← utf8_append] at hmsg
  exact join_inj hkind hkind' hmsg

/-! ## Envelopes -/

/-- What `open` asks of an envelope before it decrypts. -/
def Enveloped (sealed : Bytes) : Prop :=
  magic.length + 1 + nonceLen + 16 ≤ sealed.length ∧ sealed.take magic.length = magic ∧
    sealed[magic.length]? = some formatVersion

theorem open_malformed {aead : Aead} {key aad sealed : Bytes} (hmalformed : ¬ Enveloped sealed) :
    «open» aead key aad sealed = .error .malformed := by
  unfold Enveloped at hmalformed
  unfold «open»
  rw [if_pos]
  grind

/-- `&bytes[..n]`; `none` is a panic. -/
def sliceTo (bytes : Bytes) (n : Nat) : Option Bytes :=
  if n ≤ bytes.length then some (bytes.take n) else none

/-- `&bytes[n..]` -/
def sliceFrom (bytes : Bytes) (n : Nat) : Option Bytes :=
  if n ≤ bytes.length then some (bytes.drop n) else none

/-- `bytes.split_at(n)` -/
def splitSlice (bytes : Bytes) (n : Nat) : Option (Bytes × Bytes) :=
  if n ≤ bytes.length then some (bytes.splitAt n) else none

/-- `open` with every slice checked. -/
def openSlices (aead : Aead) (key aad sealed : Bytes) : Option (Except CryptoError Bytes) :=
  let header := magic.length + 1
  if sealed.length < header + nonceLen + 16 then some (.error .malformed)
  else do
    let front ← sliceTo sealed magic.length
    if front ≠ magic then some (.error .malformed)
    else do
      let version ← sealed[magic.length]?
      if version ≠ formatVersion then some (.error .malformed)
      else do
        let body ← sliceFrom sealed header
        let (nonce, ciphertext) ← splitSlice body nonceLen
        match aead.decrypt key nonce aad ciphertext with
        | some plaintext => some (.ok plaintext)
        | none => some (.error .tamper)

/-- No slice of `open` is out of bounds. -/
theorem openSlices_eq (aead : Aead) (key aad sealed : Bytes) :
    openSlices aead key aad sealed = some («open» aead key aad sealed) := by
  by_cases hlength : sealed.length < magic.length + 1 + nonceLen + 16
  · simp only [openSlices, «open», hlength, true_or, if_true]
  have hfront : sliceTo sealed magic.length = some (sealed.take magic.length) :=
    if_pos (by omega)
  have hbody : sliceFrom sealed (magic.length + 1) = some (sealed.drop (magic.length + 1)) :=
    if_pos (by omega)
  have hsplit : splitSlice (sealed.drop (magic.length + 1)) nonceLen =
      some ((sealed.drop (magic.length + 1)).splitAt nonceLen) :=
    if_pos (by rw [List.length_drop]; omega)
  obtain ⟨version, hversion⟩ : ∃ version, sealed[magic.length]? = some version :=
    ⟨_, List.getElem?_eq_getElem (by omega)⟩
  by_cases hmagic : sealed.take magic.length = magic
  · by_cases hformat : version = formatVersion
    · simp only [openSlices, «open», hlength, hfront, hbody, hsplit, hversion, hmagic, hformat,
        ne_eq, not_true_eq_false, or_self, if_false, Option.bind_eq_bind, Option.bind_some]
      generalize aead.decrypt key _ aad _ = opened
      cases opened <;> rfl
    · simp only [openSlices, «open», hlength, hfront, hversion, hmagic, hformat, ne_eq,
        Option.some.injEq, not_true_eq_false, not_false_eq_true, false_or, if_false, if_true,
        Option.bind_eq_bind, Option.bind_some]
  · simp only [openSlices, «open», hlength, hfront, hmagic, ne_eq, not_false_eq_true, true_or,
      or_true, if_false, if_true, Option.bind_eq_bind, Option.bind_some]

section

variable {aead : Aead} (haead : aead.Ideal)

include haead

theorem open_seal_same (key : Bytes) (nonce : Nonce) (aad plaintext : Bytes) :
    «open» aead key aad («seal» aead key nonce aad plaintext) = .ok plaintext := by
  have hlength := haead.encrypt_length key nonce.1 aad plaintext
  rw [«seal», open_envelope aead key aad nonce (by omega), haead.decrypt_encrypt]

theorem open_seal_other {key key' aad aad' : Bytes} (nonce : Nonce) (plaintext : Bytes)
    (hother : aad' ≠ aad) :
    «open» aead key' aad' («seal» aead key nonce aad plaintext) = .error .tamper := by
  have hlength := haead.encrypt_length key nonce.1 aad plaintext
  rw [«seal», open_envelope aead key' aad' nonce (by omega), haead.decrypt_other hother]

/-- An envelope cut short is too short, or its ciphertext is cut short. -/
theorem open_short {key key' aad aad' plaintext shortened : Bytes} {nonce : Nonce}
    (hstarts : shortened <+: «seal» aead key nonce aad plaintext)
    (hshort : shortened ≠ «seal» aead key nonce aad plaintext) :
    ∃ error, «open» aead key' aad' shortened = .error error := by
  by_cases henveloped : Enveloped shortened
  · have hheader : magic ++ [formatVersion] ++ nonce.1 <+: shortened := by
      refine List.prefix_of_prefix_length_le (List.prefix_append _ _) hstarts ?_
      have hlength := henveloped.1
      have hnonce := nonce.2
      simp only [List.length_append, List.length_singleton]
      omega
    obtain ⟨ciphertext, rfl⟩ := hheader
    have hcut : ciphertext <+: aead.encrypt key nonce.1 aad plaintext :=
      (List.prefix_append_right_inj _).mp hstarts
    have hne : ciphertext ≠ aead.encrypt key nonce.1 aad plaintext := by
      intro heq
      exact hshort (by rw [heq, «seal»])
    have htag : 16 ≤ ciphertext.length := by
      have hlength := henveloped.1
      have hnonce := nonce.2
      simp only [List.length_append, List.length_singleton] at hlength
      omega
    rw [open_envelope aead key' aad' nonce htag, haead.decrypt_short hcut hne]
    exact ⟨_, rfl⟩
  · exact ⟨_, open_malformed henveloped⟩

theorem openBlob_sealBlob_iff (keys : ServerKeys) (nonce : Nonce)
    {vaultId vaultId' : String} (path path' : String) (plaintext : Bytes)
    (hvault : validVaultId vaultId) (hvault' : validVaultId vaultId') :
    openBlob aead keys vaultId' path' (sealBlob aead keys nonce vaultId path plaintext) =
      if vaultId' = vaultId ∧ path' = path then .ok plaintext else .error .tamper := by
  by_cases hplace : vaultId' = vaultId ∧ path' = path
  · rw [if_pos hplace, hplace.1, hplace.2]
    exact open_seal_same haead _ _ _ _
  · rw [if_neg hplace]
    exact open_seal_other haead nonce plaintext fun haad => hplace (blobAad_inj hvault' hvault haad)

theorem NameField.openValue_sealValue (keys : SubKeys) (nonce : Nonce) {field field' : NameField}
    (value : String) (hvalid : field.valid) (hvalid' : field'.valid) :
    field'.openValue aead keys (field.sealValue aead keys nonce value) =
      if field' = field then .ok value else .error .tamper := by
  by_cases hplace : field' = field
  · rw [if_pos hplace, hplace]
    exact NameField.openValue_utf8 (open_seal_same haead _ _ _ _)
  · rw [if_neg hplace]
    exact NameField.openValue_error (open_seal_other haead nonce _ fun haad =>
      hplace (NameField.aad_inj hvalid' hvalid haad))

end

/-! ## Nothing opens elsewhere -/

/-- What the callers of `crypto.rs` rely on. -/
structure OpensInPlace (aead : Aead) (hmac : (key msg : Bytes) → Bytes) (keys : SubKeys) :
    Prop where
  blob : ∀ (nonce : Nonce) (vaultId vaultId' path path' : String) (plaintext : Bytes),
    validVaultId vaultId → validVaultId vaultId' →
      openBlob aead keys.toServerKeys vaultId' path'
          (sealBlob aead keys.toServerKeys nonce vaultId path plaintext) =
        if vaultId' = vaultId ∧ path' = path then .ok plaintext else .error .tamper
  field : ∀ (nonce : Nonce) (field field' : NameField) (value : String),
    field.valid → field'.valid →
    field'.openValue aead keys (field.sealValue aead keys nonce value) =
      if field' = field then .ok value else .error .tamper
  blob_not_field :
    ∀ (nonce : Nonce) (vaultId path : String) (plaintext : Bytes) (field : NameField),
    field.openValue aead keys (sealBlob aead keys.toServerKeys nonce vaultId path plaintext) =
      .error .tamper
  field_not_blob : ∀ (nonce : Nonce) (field : NameField) (value vaultId path : String),
    openBlob aead keys.toServerKeys vaultId path (field.sealValue aead keys nonce value) =
      .error .tamper
  slices : ∀ key aad sealed,
    openSlices aead key aad sealed = some («open» aead key aad sealed)
  malformed_blob : ∀ (vaultId path : String) (sealed : Bytes), ¬ Enveloped sealed →
    openBlob aead keys.toServerKeys vaultId path sealed = .error .malformed
  malformed_field : ∀ (field : NameField) (sealed : Bytes), ¬ Enveloped sealed →
    field.openValue aead keys sealed = .error .malformed
  shortened_blob : ∀ (nonce : Nonce) (vaultId vaultId' path path' : String)
    (plaintext shortened : Bytes),
    shortened <+: sealBlob aead keys.toServerKeys nonce vaultId path plaintext →
      shortened ≠ sealBlob aead keys.toServerKeys nonce vaultId path plaintext →
        ∃ error, openBlob aead keys.toServerKeys vaultId' path' shortened = .error error
  shortened_field :
    ∀ (nonce : Nonce) (field field' : NameField) (value : String) (shortened : Bytes),
    shortened <+: field.sealValue aead keys nonce value →
      shortened ≠ field.sealValue aead keys nonce value →
        ∃ error, field'.openValue aead keys shortened = .error error
  index : ∀ kind ∈ indexKinds, ∀ kind' ∈ indexKinds, ∀ value value',
    index hmac keys kind value = index hmac keys kind' value' → kind = kind' ∧ value = value'

/-- Sealed data opens where it was sealed and nowhere else. -/
theorem opens_in_place {aead : Aead} (haead : aead.Ideal) {hmac : (key msg : Bytes) → Bytes}
    (hhmac : ∀ {key msg msg'}, hmac key msg = hmac key msg' → msg = msg') (keys : SubKeys) :
    OpensInPlace aead hmac keys where
  blob := by
    intro nonce vaultId vaultId' path path' plaintext hvault hvault'
    exact openBlob_sealBlob_iff haead _ nonce path path' plaintext hvault hvault'
  field := by
    intro nonce field field' value hvalid hvalid'
    exact NameField.openValue_sealValue haead keys nonce value hvalid hvalid'
  blob_not_field := by
    intro nonce vaultId path plaintext field
    exact NameField.openValue_error (open_seal_other haead nonce plaintext
      (field.aad_ne_blobAad vaultId path))
  field_not_blob := by
    intro nonce field value vaultId path
    exact open_seal_other haead nonce _ (Ne.symm (field.aad_ne_blobAad vaultId path))
  slices := openSlices_eq aead
  malformed_blob := by
    intro vaultId path sealed hmalformed
    exact open_malformed hmalformed
  malformed_field := by
    intro field sealed hmalformed
    exact NameField.openValue_error (open_malformed hmalformed)
  shortened_blob := by
    intro nonce vaultId vaultId' path path' plaintext shortened hstarts hshort
    exact open_short haead hstarts hshort
  shortened_field := by
    intro nonce field field' value shortened hstarts hshort
    obtain ⟨error, hopen⟩ := open_short haead hstarts hshort
    exact ⟨error, NameField.openValue_error hopen⟩
  index := by
    intro kind hkind kind' hkind' value value' hindex
    exact index_inj hmac hhmac keys (colon_notMem_of_mem_indexKinds hkind)
      (colon_notMem_of_mem_indexKinds hkind') hindex

/-- One account's device name does not open in another's row. -/
theorem marked_names_open_in_place :
    OpensInPlace .marked (fun key msg => key ++ msg) ⟨⟨[1]⟩, [2], [3]⟩ ∧
      (NameField.deviceName "usr_a" "laptop").openValue .marked ⟨⟨[1]⟩, [2], [3]⟩
        (sealName .marked ⟨⟨[1]⟩, [2], [3]⟩ Aead.zeroNonce "usr_b" "laptop" "desk") =
          .error .tamper := by
  have hplace := @opens_in_place .marked Aead.marked_ideal (fun key msg => key ++ msg)
    List.append_cancel_left ⟨⟨[1]⟩, [2], [3]⟩
  refine ⟨hplace, ?_⟩
  rw [sealName_eq, hplace.field _ _ _ _ (by decide) (by decide)]
  rfl

end ObSink.Server
