import Mathlib.Logic.Function.Basic
import ObSink.Core.Keys
import ObSink.Server.Files

/-! # Account keys and approval requests

`GET/PUT /auth/keys` and `PUT /auth/keys/rewrap` (`server/src/auth/keys.rs`),
and the approval requests of an account's devices (`approval.rs`,
`devices.rs`). Each function is one request on the rows of one account, in the
order in which Postgres serialises them. Base64 fields come decoded.
-/

namespace ObSink.Server.Account

def approvalTtlSecs : Nat := 600
def verifierLen : Nat := 32

/-- The `account_key_*` columns of `users`. -/
structure KeyColumns (Byte : Type) where
  enc : Option (List Byte) := none
  salt : Option (List Byte) := none
  id : Option String := none
  verifier : Option (List Byte) := none
  deriving DecidableEq

/-- The `approval_*` columns of `devices`. -/
structure ApprovalColumns (Byte : Type) where
  publicKey : Option (List Byte) := none
  requested : Option Nat := none
  expires : Option Nat := none
  wrapped : Option (List Byte) := none
  approvedBy : Option String := none
  approved : Option Nat := none
  deriving DecidableEq

/-- The rows of an account; a device has one once it signed in. -/
structure Rows (Byte : Type) where
  keys : KeyColumns Byte
  devices : String → Option (ApprovalColumns Byte)

variable {Byte : Type}

def Rows.start : Rows Byte := ⟨{}, fun _ => none⟩

/-- A base64 field of a body. -/
inductive BodyField (Byte : Type) where
  | missing
  | malformed
  | bytes (value : List Byte)
  deriving DecidableEq

def decodeField (value : BodyField Byte) (name : String) (len : Nat) :
    Except ApiError (List Byte) :=
  match value with
  | .malformed => .error (.status 400 (name ++ " must be base64"))
  | .missing => .error (.status 400 (name ++ " is required"))
  | .bytes bytes =>
      if bytes.length ≠ len then
        .error (.status 400 (name ++ " must decode to " ++ toString len ++ " bytes"))
      else .ok bytes

@[simp] theorem decodeField_bytes {bytes : List Byte} {name : String} {len : Nat}
    (hlength : bytes.length = len) : decodeField (.bytes bytes) name len = .ok bytes := by
  simp [decodeField, hlength]

theorem decodeField_ok {value : BodyField Byte} {name : String} {len : Nat} {bytes : List Byte}
    (hdecode : decodeField value name len = .ok bytes) : value = .bytes bytes := by
  unfold decodeField at hdecode
  grind

/-! ## The account key -/

structure AccountKeyBlob (Byte : Type) where
  keyId : String
  wrapped : List Byte
  salt : List Byte
  deriving DecidableEq

structure SetKeysBody (Byte : Type) where
  wrapped : BodyField Byte
  salt : BodyField Byte
  verifier : BodyField Byte

structure Material (Byte : Type) where
  wrapped : List Byte
  salt : List Byte
  verifier : List Byte

def SetKeysBody.decode (body : SetKeysBody Byte) : Except ApiError (Material Byte) := do
  let wrapped ← decodeField body.wrapped "wrapped" wrappedKeyLen
  let salt ← decodeField body.salt "salt" saltLen
  let verifier ← decodeField body.verifier "verifier" verifierLen
  return ⟨wrapped, salt, verifier⟩

inductive SetKeysResponse (Byte : Type) where
  | created (keyId : String)
  | conflict (accountKey : Option (AccountKeyBlob Byte))

namespace Rows

/-- The stored blob, or `none` before the first set. -/
def current (rows : Rows Byte) : Option (AccountKeyBlob Byte) :=
  match rows.keys.enc, rows.keys.salt, rows.keys.id with
  | some wrapped, some salt, some keyId => some ⟨keyId, wrapped, salt⟩
  | _, _, _ => none

def hasKey (rows : Rows Byte) : Bool := rows.keys.enc.isSome

/-- `PUT /auth/keys`: create-only. `keyId` is the id the server mints. -/
def set (rows : Rows Byte) (body : SetKeysBody Byte) (keyId : String) :
    Except ApiError (SetKeysResponse Byte) × Rows Byte :=
  match body.decode with
  | .error error => (.error error, rows)
  | .ok material =>
      if rows.keys.enc.isNone then
        (.ok (.created keyId), { rows with
          keys := ⟨some material.wrapped, some material.salt, some keyId, some material.verifier⟩ })
      else (.ok (.conflict rows.current), rows)

variable [DecidableEq Byte]

/-- The account's verifier is the one a caller shows. -/
def checkVerifier (rows : Rows Byte) (verifier : List Byte) : Except ApiError Unit :=
  match rows.keys.verifier with
  | none => .error (.status 400 "set a passphrase first")
  | some stored =>
      if stored ≠ verifier then .error (.status 403 "passphrase does not match this account")
      else .ok ()

/-- `PUT /auth/keys/rewrap` -/
def rewrap (rows : Rows Byte) (body : SetKeysBody Byte) : Except ApiError Unit × Rows Byte :=
  match body.decode with
  | .error error => (.error error, rows)
  | .ok material =>
      match rows.checkVerifier material.verifier with
      | .error error => (.error error, rows)
      | .ok () =>
          (.ok (), { rows with
            keys := { rows.keys with enc := some material.wrapped, salt := some material.salt } })

/-! ## Devices and their requests -/

omit [DecidableEq Byte]

def setDevice (rows : Rows Byte) (deviceId : String) (row : Option (ApprovalColumns Byte)) :
    Rows Byte :=
  { rows with devices := Function.update rows.devices deviceId row }

@[simp] theorem setDevice_keys (rows : Rows Byte) (deviceId : String)
    (row : Option (ApprovalColumns Byte)) : (rows.setDevice deviceId row).keys = rows.keys := rfl

theorem setDevice_devices {rows : Rows Byte} {deviceId other : String}
    {row : Option (ApprovalColumns Byte)} {columns : ApprovalColumns Byte}
    (hcolumns : (rows.setDevice deviceId row).devices other = some columns) :
    other = deviceId ∧ row = some columns ∨ rows.devices other = some columns := by
  by_cases hother : other = deviceId
  · left
    simp only [hother, setDevice, Function.update_self] at hcolumns
    exact ⟨hother, hcolumns⟩
  · right
    simpa only [setDevice, Function.update_of_ne hother] using hcolumns

/-- A row that starts without a blob brings none. -/
theorem setDevice_wrapped {rows : Rows Byte} {deviceId other : String}
    {row : Option (ApprovalColumns Byte)} (hrow : ∀ columns ∈ row, columns.wrapped = none)
    {columns : ApprovalColumns Byte} {blob : List Byte}
    (hcolumns : (rows.setDevice deviceId row).devices other = some columns)
    (hblob : columns.wrapped = some blob) : rows.devices other = some columns := by
  obtain ⟨-, hnew⟩ | hold := setDevice_devices hcolumns
  · rw [hrow columns hnew] at hblob
    cases hblob
  · exact hold

/-- `devices::upsert` at a sign-in. -/
def upsert (rows : Rows Byte) (deviceId : String) : Rows Byte := rows.setDevice deviceId (some {})

/-- A device is revoked. -/
def revoke (rows : Rows Byte) (deviceId : String) : Rows Byte := rows.setDevice deviceId none

end Rows

structure Registered where
  requested : Nat
  expires : Nat
  deriving DecidableEq, Repr

structure ApprovalStatus (Byte : Type) where
  publicKey : List Byte
  requested : Nat
  expires : Nat
  wrapped : Option (List Byte)
  keyId : Option String
  approvedBy : Option String
  approved : Option Nat
  deriving DecidableEq

/-- What other devices see of a pending request. -/
structure DeviceApproval (Byte : Type) where
  publicKey : List Byte
  requested : Nat
  expires : Nat
  approved : Bool
  deriving DecidableEq

structure ApproveBody (Byte : Type) where
  wrapped : BodyField Byte
  verifier : BodyField Byte

/-- `devices::list`: the part of a device's summary that is about its request. -/
def ApprovalColumns.summary (columns : ApprovalColumns Byte) (now : Nat) :
    Option (DeviceApproval Byte) :=
  match columns.publicKey, columns.expires with
  | some publicKey, some expires =>
      if now < expires then
        some ⟨publicKey, columns.requested.getD 0, expires, columns.wrapped.isSome⟩
      else none
  | _, _ => none

/-- `WHERE approval_public_key IS NOT NULL AND approval_expires > now` -/
def ApprovalColumns.live (columns : ApprovalColumns Byte) (now : Nat) : Bool :=
  columns.publicKey.isSome && columns.expires.any (now < ·)

namespace Rows

/-- `PUT /auth/approval`. An account never loses its key, so the check and the
update are one step. -/
def register (rows : Rows Byte) (deviceId : String) (publicKey : BodyField Byte) (now : Nat) :
    Except ApiError Registered × Rows Byte :=
  match decodeField publicKey "public_key" approvalPublicKeyLen with
  | .error error => (.error error, rows)
  | .ok publicKey =>
      if !rows.hasKey then (.error (.status 400 "set a passphrase first"), rows)
      else
        let expires := now + approvalTtlSecs
        match rows.devices deviceId with
        | none => (.error (.status 401 "unauthorized"), rows)
        | some _ =>
            (.ok ⟨now, expires⟩, rows.setDevice deviceId (some {
              publicKey := some publicKey
              requested := some now
              expires := some expires }))

/-- `GET /auth/approval` -/
def poll (rows : Rows Byte) (deviceId : String) (now : Nat) :
    Except ApiError (Option (ApprovalStatus Byte)) :=
  match rows.devices deviceId with
  | none => .error (.status 401 "unauthorized")
  | some columns =>
      match columns.publicKey, columns.expires with
      | some publicKey, some expires =>
          if now < expires then
            .ok (some {
              publicKey := publicKey
              requested := columns.requested.getD 0
              expires := expires
              keyId := columns.wrapped.bind fun _ => rows.keys.id
              wrapped := columns.wrapped
              approvedBy := columns.approvedBy
              approved := columns.approved })
          else .ok none
      | _, _ => .ok none

/-- `DELETE /auth/approval` -/
def cancel (rows : Rows Byte) (deviceId : String) : Rows Byte :=
  rows.setDevice deviceId ((rows.devices deviceId).map fun _ => {})

/-- The retention pass clears the requests that have expired. -/
def expireApprovals (rows : Rows Byte) (now : Nat) : Rows Byte :=
  { rows with devices := fun deviceId => (rows.devices deviceId).map fun columns =>
      if columns.publicKey.isSome && columns.expires.any (· ≤ now) then {} else columns }

variable [DecidableEq Byte]

/-- `POST /auth/devices/{device_id}/approval`, by the device `approver`. -/
def approve (rows : Rows Byte) (approver deviceId : String) (body : ApproveBody Byte)
    (now : Nat) : Except ApiError Unit × Rows Byte :=
  if deviceId = approver then (.error (.status 400 "a device cannot approve itself"), rows)
  else
    match decodeField body.wrapped "wrapped" approvalBlobLen with
    | .error error => (.error error, rows)
    | .ok wrapped =>
        match decodeField body.verifier "verifier" verifierLen with
        | .error error => (.error error, rows)
        | .ok verifier =>
            match rows.checkVerifier verifier with
            | .error error => (.error error, rows)
            | .ok () =>
                match (rows.devices deviceId).filter (·.live now) with
                | none => (.error (.status 404 "no pending request for this device"), rows)
                | some columns =>
                    if columns.wrapped.isSome then
                      (.error (.status 409 "already approved"), rows)
                    else
                      (.ok (), rows.setDevice deviceId (some { columns with
                        wrapped := some wrapped
                        approvedBy := some approver
                        approved := some now
                        expires := some (now + approvalTtlSecs) }))

/-! ## What a request does to the rows -/

omit [DecidableEq Byte] in
/-- A set that counts finds no key; every other leaves the rows alone. -/
theorem set_cases {rows next : Rows Byte} {body : SetKeysBody Byte} {keyId : String}
    {answer : Except ApiError (SetKeysResponse Byte)}
    (hset : rows.set body keyId = (answer, next)) :
    (∃ material, body.decode = .ok material ∧ rows.keys.enc = none ∧
      answer = .ok (.created keyId) ∧
      next = { rows with keys :=
        ⟨some material.wrapped, some material.salt, some keyId, some material.verifier⟩ }) ∨
    next = rows ∧ (answer = .ok (.conflict rows.current) ∧ rows.keys.enc.isSome = true ∨
      ∃ error, answer = .error error) := by
  unfold Rows.set at hset
  grind [Option.isNone_iff_eq_none, Option.isSome_iff_ne_none]

theorem checkVerifier_ok {rows : Rows Byte} {verifier : List Byte}
    (hcheck : rows.checkVerifier verifier = .ok ()) : rows.keys.verifier = some verifier := by
  unfold checkVerifier at hcheck
  grind

/-- A rewrap that counts shows the account's verifier. -/
theorem rewrap_cases {rows next : Rows Byte} {body : SetKeysBody Byte}
    {answer : Except ApiError Unit} (hrewrap : rows.rewrap body = (answer, next)) :
    (∃ material, body.decode = .ok material ∧ rows.keys.verifier = some material.verifier ∧
      answer = .ok () ∧
      next = { rows with keys :=
        { rows.keys with enc := some material.wrapped, salt := some material.salt } }) ∨
    next = rows ∧ ∃ error, answer = .error error := by
  unfold rewrap at hrewrap
  grind [checkVerifier_ok]

omit [DecidableEq Byte] in
/-- A registered request is a new one. -/
theorem register_cases {rows next : Rows Byte} {deviceId : String} {publicKey : BodyField Byte}
    {now : Nat} {answer : Except ApiError Registered}
    (hregister : rows.register deviceId publicKey now = (answer, next)) :
    (∃ bytes columns, publicKey = .bytes bytes ∧ rows.devices deviceId = some columns ∧
      next = rows.setDevice deviceId (some {
        publicKey := some bytes
        requested := some now
        expires := some (now + approvalTtlSecs) })) ∨
    next = rows := by
  unfold register at hregister
  grind [decodeField_ok]

/-- An approval that counts answers a live request that has none yet. -/
theorem approve_cases {rows next : Rows Byte} {approver deviceId : String}
    {body : ApproveBody Byte} {now : Nat} {answer : Except ApiError Unit}
    (happrove : rows.approve approver deviceId body now = (answer, next)) :
    (∃ wrapped verifier columns, deviceId ≠ approver ∧
      body.wrapped = .bytes wrapped ∧ body.verifier = .bytes verifier ∧
      rows.keys.verifier = some verifier ∧ rows.devices deviceId = some columns ∧
      columns.live now = true ∧ columns.wrapped = none ∧
      next = rows.setDevice deviceId (some { columns with
        wrapped := some wrapped
        approvedBy := some approver
        approved := some now
        expires := some (now + approvalTtlSecs) })) ∨
    next = rows := by
  have hrefused : ∀ error, (Except.error error, rows) = (answer, next) → next = rows :=
    fun _ hsame => (Prod.mk.inj hsame).2.symm
  unfold approve at happrove
  split at happrove
  next => exact Or.inr (hrefused _ happrove)
  next hother =>
    split at happrove
    next => exact Or.inr (hrefused _ happrove)
    next wrapped hwrapped =>
      split at happrove
      next => exact Or.inr (hrefused _ happrove)
      next verifier hverifier =>
        split at happrove
        next => exact Or.inr (hrefused _ happrove)
        next hcheck =>
          split at happrove
          next => exact Or.inr (hrefused _ happrove)
          next columns hcolumns =>
            split at happrove
            next => exact Or.inr (hrefused _ happrove)
            next hpending =>
              obtain ⟨hrow, hlive⟩ := Option.filter_eq_some_iff.mp hcolumns
              have hnext := (Prod.mk.inj happrove).2.symm
              exact Or.inl ⟨wrapped, verifier, columns, hother, decodeField_ok hwrapped,
                decodeField_ok hverifier, checkVerifier_ok hcheck, hrow, hlive,
                Option.not_isSome_iff_eq_none.mp hpending, hnext⟩

omit [DecidableEq Byte] in
theorem poll_ok {rows : Rows Byte} {deviceId : String} {now : Nat} {status : ApprovalStatus Byte}
    (hpoll : rows.poll deviceId now = .ok (some status)) :
    ∃ columns, rows.devices deviceId = some columns ∧
      columns.publicKey = some status.publicKey ∧ columns.wrapped = status.wrapped ∧
      status.keyId = status.wrapped.bind fun _ => rows.keys.id := by
  unfold poll at hpoll
  grind

omit [DecidableEq Byte] in
/-- A device that others see as approved is given the blob. -/
theorem poll_of_summary {rows : Rows Byte} {deviceId : String} {now : Nat}
    {columns : ApprovalColumns Byte} {summary : DeviceApproval Byte}
    (hcolumns : rows.devices deviceId = some columns)
    (hsummary : columns.summary now = some summary) (happroved : summary.approved = true) :
    ∃ status blob, rows.poll deviceId now = .ok (some status) ∧ status.wrapped = some blob ∧
      status.publicKey = summary.publicKey := by
  unfold ApprovalColumns.summary at hsummary
  split at hsummary
  next publicKey expires hkey hexpires =>
    split at hsummary
    next hlive =>
      obtain rfl := Option.some.inj hsummary
      obtain ⟨blob, hblob⟩ := Option.isSome_iff_exists.mp happroved
      simp [poll, hcolumns, hkey, hexpires, hlive, hblob]
    next => cases hsummary
  next => cases hsummary

end Rows

end ObSink.Server.Account
