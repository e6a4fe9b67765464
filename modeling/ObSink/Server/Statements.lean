import ObSink.Server.Batch
import ObSink.Server.History
import ObSink.Server.Storage
import ObSink.Server.Tables

/-! # Statements

The statements that the routes behind a bearer token run on the database, and
the reads they make of the blobs (`server/src/routes`, `server/src/auth`). What
runs in one transaction under a lock is one statement here, and so are the two
statements of a call on the account's own rows. None of them is interrupted: the
database and the file system are there, and a request is answered with an
`Answer` or an error, never dropped.
-/

namespace ObSink.Server.Tables

open Account (AccountKeyBlob ApproveBody BodyField DeviceApproval Registered SetKeysBody
  SetKeysResponse decodeField verifierLen)

/-! ## What a request is answered -/

structure DeviceSummary where
  id : String
  name : String
  platform : String
  created : Nat
  lastSeen : Nat
  current : Bool
  vaultIds : List String
  approval : Option (DeviceApproval UInt8)
  deriving DecidableEq

structure VaultUsage where
  id : String
  bytes : Nat
  deriving DecidableEq, Repr

structure Usage where
  vaults : List VaultUsage
  totalBytes : Nat
  maxVaultBytes : Nat
  maxVaults : Nat
  deriving DecidableEq, Repr

structure MeUser where
  id : String
  email : Option String
  created : Nat
  deriving DecidableEq, Repr

structure InviteInfo where
  code : String
  created : Nat
  expires : Nat
  status : String
  usedAt : Option Nat
  deriving DecidableEq, Repr

structure VaultDevice where
  id : String
  name : String
  platform : String
  lastSynced : Option Nat
  lastRevision : Option Nat
  deriving DecidableEq, Repr

structure VaultSummary where
  id : String
  name : String
  created : Nat
  maxFileSize : Nat
  revision : Nat
  lastWrite : Nat
  bytes : Nat
  wrappedKey : Option Bytes
  devices : List VaultDevice
  deriving DecidableEq, Repr

structure VersionInfo where
  name : String
  ts : Nat
  size : Nat
  deriving DecidableEq, Repr

structure TrashEntry where
  path : String
  encPath : String
  hash : String
  size : Nat
  deletedAt : Nat
  deriving DecidableEq, Repr

inductive Answer where
  | noContent
  | done
  | session (token sessionId : String) (expires : Nat) (userId : String) (email : Option String)
  | me (user : MeUser) (devices : List DeviceSummary) (usage : Usage)
  | keys (accountKey : Option (AccountKeyBlob UInt8))
  | keysSet (outcome : SetKeysResponse UInt8)
  | registered (registered : Registered)
  | approval (status : Option (Account.ApprovalStatus UInt8))
  | invite (invite : InviteInfo)
  | invites (invites : List InviteInfo)
  | vaults (vaults : List VaultSummary)
  | vault (vault : VaultSummary)
  | manifest (answer : ManifestAnswer)
  | blob (bytes : Bytes)
  | results (results : List BatchOperationResult)
  | versions (versions : List VersionInfo)
  | trash (entries : List TrashEntry)

abbrev Response := Except ApiError Answer

def unauthorized : ApiError := .status 401 "unauthorized"
def vaultNotFound : ApiError := .status 404 "vault not found"
def deviceNotFound : ApiError := .status 404 "device not found"

/-- A query that must find a row finds none. -/
def rowNotFound : ApiError :=
  .internal "database: no rows returned by a query that expected to return at least one row"

/-- A row that refers to none, or has a key that is taken. -/
def violated : ApiError := .internal "database: constraint violated"

/-! ## The account key and the approval requests -/

inductive AccountCall where
  | current
  | set (body : SetKeysBody UInt8) (keyId : String)
  | rewrap (body : SetKeysBody UInt8)
  | register (deviceId : String) (publicKey : BodyField UInt8) (now : Nat)
  | poll (deviceId : String) (now : Nat)
  | cancel (deviceId : String)
  | approve (approver deviceId : String) (body : ApproveBody UInt8) (now : Nat)

/-- The call on the rows of an account that is there. -/
def AccountCall.onRows (rows : Account.Rows UInt8) : AccountCall → Response × Account.Rows UInt8
  | .current => (.ok (.keys rows.current), rows)
  | .set body keyId =>
      let (outcome, rows) := rows.set body keyId
      (outcome.map Answer.keysSet, rows)
  | .rewrap body =>
      let (outcome, rows) := rows.rewrap body
      (outcome.map fun _ => .noContent, rows)
  | .register deviceId publicKey now =>
      let (outcome, rows) := rows.register deviceId publicKey now
      (outcome.map Answer.registered, rows)
  | .poll deviceId now => ((rows.poll deviceId now).map Answer.approval, rows)
  | .cancel deviceId => (.ok .noContent, rows.cancel deviceId)
  | .approve approver deviceId body now =>
      let (outcome, rows) := rows.approve approver deviceId body now
      (outcome.map fun _ => .noContent, rows)

/-- The call of an account that has been deleted: only the checks that come
before its row is read. -/
def AccountCall.onNoRows : AccountCall → Response
  | .current => .error unauthorized
  | .set body _ | .rewrap body =>
      match body.decode with
      | .error error => .error error
      | .ok _ => .error unauthorized
  | .register _ publicKey _ =>
      match decodeField publicKey "public_key" approvalPublicKeyLen with
      | .error error => .error error
      | .ok _ => .error rowNotFound
  | .poll _ _ => .error unauthorized
  | .cancel _ => .ok .noContent
  | .approve approver deviceId body _ =>
      if deviceId = approver then .error (.status 400 "a device cannot approve itself")
      else
        match decodeField body.wrapped "wrapped" approvalBlobLen with
        | .error error => .error error
        | .ok _ =>
            match decodeField body.verifier "verifier" verifierLen with
            | .error error => .error error
            | .ok _ => .error unauthorized

def AccountCall.run (call : AccountCall) (userId : String) (db : Db) : Response × Db :=
  if db.hasUser userId then
    let (response, rows) := call.onRows (db.accountRows userId)
    (response, db.setAccountRows userId rows)
  else (call.onNoRows, db)

/-! ## Statements -/

/-- What the routes read besides the database; a token is kept as its hash. -/
structure RouteConfig extends Storage.StorageConfig where
  tokenHash : String → Bytes
  serde : Serde

structure Principal where
  userId : String
  sessionId : String
  deviceId : String
  deriving DecidableEq, Repr

inductive Statement where
  /-- The session of a token, unless it has expired. -/
  | session (tokenHash : Bytes) (now : Nat)
  /-- `devices::upsert`, then `sessions::create`. -/
  | signIn (userId : String) (device : DeviceIdentity) (sessionId : String) (tokenHash : Bytes)
      (now : Nat)
  | user (id : String)
  | account (userId : String) (call : AccountCall)
  /-- The devices of an account, each with the vaults it holds. -/
  | devices (userId : String)
  | deleteDevice (userId deviceId : String)
  | renameDevice (userId deviceId name : String)
  | insertInvite (code createdBy : String) (now expires : Nat)
  | invites (createdBy : String)
  /-- The vaults of an account with the bytes they use. -/
  | usage (owner : String)
  | role (vaultId userId : String)
  | vaultsOf (userId : String)
  /-- The devices that hold a vault of the account. -/
  | holdersOf (userId : String)
  /-- The transaction of `create`. -/
  | createVault (row : VaultRow) (wrappedKey : Bytes)
  | renameVault (id name : String)
  | deleteVault (id owner : String)
  | deleteVaultsOf (owner : String)
  | deleteUser (id : String)
  | removeBlobs (vaultId : String)
  | attach (userId deviceId vaultId : String) (now : Nat) (revision : Option Nat)
  | detach (userId deviceId vaultId : String)
  /-- `apply_put` or `apply_delete`. -/
  | write (vaultId : String) (call : Call)
  /-- The snapshot of `get_manifest`. -/
  | manifest (vaultId userId : String) (ifNoneMatch : Option String)
  | files (vaultId : String)
  | live (vaultId pathName : String)
  | history (vaultId : String) (tier : Tier) (pathName : String)

@[reducible] def Statement.Reply : Statement → Type
  | .session _ _ => Option Principal
  | .signIn _ _ _ _ _ => Bool
  | .user _ => Option MeUser
  | .account _ _ => Response
  | .devices _ => List (DeviceRow × List String)
  | .deleteDevice _ _ => Bool
  | .renameDevice _ _ _ => Bool
  | .insertInvite _ _ _ _ => Option Bool
  | .invites _ => List InviteRow
  | .usage _ => List VaultUsage
  | .role _ _ => Option String
  | .vaultsOf _ => List (VaultRow × MemberRow)
  | .holdersOf _ => List (HoldingRow × DeviceRow)
  | .createVault _ _ => Except ApiError Unit
  | .renameVault _ _ => Unit
  | .deleteVault _ _ => Bool
  | .deleteVaultsOf _ => List String
  | .deleteUser _ => Unit
  | .removeBlobs _ => Unit
  | .attach _ _ _ _ _ => Bool
  | .detach _ _ _ => Unit
  | .write _ _ => Except ApiError Outcome
  | .manifest _ _ _ => Except ApiError ManifestAnswer
  | .files _ => Manifest
  | .live _ _ => Option Bytes
  | .history _ _ _ => HistoryDir

def sessionTtlSecs : Nat := 180 * 24 * 60 * 60

namespace Db

/-- A device of an account signs in; `none` when a constraint is violated. -/
def signIn (db : Db) (userId : String) (device : DeviceIdentity) (sessionId : String)
    (tokenHash : Bytes) (now : Nat) : Option Db :=
  let row : SessionRow :=
    { id := sessionId, userId, deviceId := device.id, tokenHash, created := now
      expires := now + sessionTtlSecs }
  if db.hasUser userId && !db.sessionTaken row then
    some ((db.upsertDevice userId device now).replaceSession row)
  else none

/-- `none` when the account is gone, else whether the code was free. -/
def insertInvite (db : Db) (code createdBy : String) (now expires : Nat) : Option Bool × Db :=
  if db.invites.any (·.code = code) then (some false, db)
  else if db.hasUser createdBy then
    (some true, { db with invites := db.invites ++
      [{ code, createdBy := some createdBy, created := now, expires }] })
  else (none, db)

/-- The vaults with a row for this member, oldest first. -/
def vaultsOf (db : Db) (userId : String) : List (VaultRow × MemberRow) :=
  (ordered (fun row : VaultRow × MemberRow => (row.1.created, row.1.id))
    (db.vaults.flatMap fun vault =>
      (db.members.filter (MemberRow.isOf vault.id userId)).map fun member => (vault, member)))

def holdersOf (db : Db) (userId : String) : List (HoldingRow × DeviceRow) :=
  ordered (fun row : HoldingRow × DeviceRow => (row.1.attached, row.2.id))
    (db.holdings.flatMap fun holding =>
      (db.members.filter (MemberRow.isOf holding.vaultId userId)).flatMap fun _ =>
        (db.devices.filter (DeviceRow.isOf holding.userId holding.deviceId)).map fun device =>
          (holding, device))

/-- Under the advisory lock of the owner. -/
def createVault (db : Db) (maxVaults : Nat) (row : VaultRow) (wrappedKey : Bytes) :
    Except ApiError Unit × Db :=
  match db.users.find? (·.id = row.owner) with
  | none => (.error rowNotFound, db)
  | some user =>
      if user.keys.enc.isNone then (.error (.status 400 "set a passphrase first"), db)
      else if maxVaults ≤ (db.vaults.filter (·.owner = row.owner)).length then
        (.error (.status 403
          ("vault limit reached (" ++ toString maxVaults ++ " per account)")), db)
      else if db.hasVault row.id then
        (.error (.status 409 "a vault with that id already exists"), db)
      else
        (.ok (), { db with
          vaults := db.vaults ++ [row]
          members := db.members ++
            [{ vaultId := row.id, userId := row.owner, role := "owner"
               wrappedKey := some wrappedKey, created := row.created }] })

end Db

/-- A statement on the committed rows. -/
def Statement.run (config : RouteConfig) : (statement : Statement) → Db → statement.Reply × Db
  | .session tokenHash now, db =>
      ((db.sessions.find? fun row => row.tokenHash = tokenHash ∧ now < row.expires).map
        fun row => ⟨row.userId, row.id, row.deviceId⟩, db)
  | .signIn userId device sessionId tokenHash now, db =>
      match db.signIn userId device sessionId tokenHash now with
      | some db => (true, db)
      | none => (false, db)
  | .user id, db =>
      ((db.users.find? (·.id = id)).map fun row => ⟨row.id, row.email, row.created⟩, db)
  | .account userId call, db => call.run userId db
  | .devices userId, db =>
      ((ordered (fun row : DeviceRow => (row.created, row.id))
        (db.devices.filter (·.userId = userId))).map fun device =>
          (device, (ordered (fun row : HoldingRow => (row.attached, row.vaultId))
            (db.holdings.filter fun row => row.userId = userId && row.deviceId = device.id)).map
              HoldingRow.vaultId), db)
  | .deleteDevice userId deviceId, db =>
      (db.hasDevice userId deviceId, db.dropDevice userId deviceId)
  | .renameDevice userId deviceId name, db =>
      (db.hasDevice userId deviceId, db.updateDevice userId deviceId fun row => { row with name })
  | .insertInvite code createdBy now expires, db => db.insertInvite code createdBy now expires
  | .invites createdBy, db =>
      ((ordered (fun row : InviteRow => (row.created, ""))
        (db.invites.filter (·.createdBy = some createdBy))).reverse, db)
  | .usage owner, db =>
      ((ordered (fun row : VaultRow => (row.created, row.id))
        (db.vaults.filter (·.owner = owner))).map fun row => ⟨row.id, row.bytes⟩, db)
  | .role vaultId userId, db =>
      ((db.members.find? (MemberRow.isOf vaultId userId)).map MemberRow.role, db)
  | .vaultsOf userId, db => (db.vaultsOf userId, db)
  | .holdersOf userId, db => (db.holdersOf userId, db)
  | .createVault row wrappedKey, db => db.createVault config.maxVaultsPerUser row wrappedKey
  | .renameVault id name, db => ((), db.updateVault id fun row => { row with name })
  | .deleteVault id owner, db =>
      (db.vaults.any fun row => row.id = id && row.owner = owner,
        db.dropVaults fun row => row.id = id && row.owner = owner)
  | .deleteVaultsOf owner, db =>
      ((db.vaults.filter (·.owner = owner)).map VaultRow.id,
        db.dropVaults fun row => row.owner = owner)
  | .deleteUser id, db => ((), db.dropUser id)
  | .removeBlobs vaultId, db => ((), db.setBlobs vaultId .empty)
  | .attach userId deviceId vaultId now revision, db =>
      match db.attach userId deviceId vaultId now revision with
      | some db => (true, db)
      | none => (false, db)
  | .detach userId deviceId vaultId, db => ((), db.detach userId deviceId vaultId)
  | .write vaultId call, db =>
      let (outcome, state) := call.serve config.toConfig (db.state vaultId)
      (outcome, db.setState vaultId state)
  | .manifest vaultId userId ifNoneMatch, db =>
      (getManifest (db.state vaultId).vault userId ifNoneMatch, db)
  | .files vaultId, db => ((db.state vaultId).vault.files, db)
  | .live vaultId pathName, db => ((db.blobs vaultId).live pathName, db)
  | .history vaultId tier pathName, db => ((db.blobs vaultId).history tier pathName, db)

/-! ## What happens besides -/

/-- What sign-ups and the retention pass do to the rows and blobs. -/
inductive Outside where
  /-- A sign-up puts its account in. -/
  | signUp (row : UserRow)
  /-- A sign-up takes an invite. -/
  | redeem (code : String) (now : Nat)
  | expireSessions (now : Nat)
  | expireApprovals (now : Nat)
  /-- An entry of a history directory is removed. -/
  | prune (vaultId : String) (tier : Tier) (pathName entry : String)
  /-- The blobs of a vault are swept if it has no row, in one step. -/
  | sweep (vaultId : String)

def Outside.act : Outside → Db → Db
  | .signUp row, db => { db with users := db.users ++ [row] }
  | .redeem code now, db =>
      let take (row : InviteRow) : InviteRow := { row with usedAt := some now }
      { db with invites := Select.changed (fun row => row.code = code) take db.invites }
  | .expireSessions now, db =>
      { db with sessions := db.sessions.filter fun row => now < row.expires }
  | .expireApprovals now, db =>
      let lapsed (row : DeviceRow) : Bool :=
        row.approval.publicKey.isSome && row.approval.expires.any (· ≤ now)
      let clear (row : DeviceRow) : DeviceRow := { row with approval := {} }
      { db with devices := Select.changed (fun row => lapsed row) clear db.devices }
  | .prune vaultId tier pathName entry, db =>
      let store := db.blobs vaultId
      db.setBlobs vaultId
        (store.setHistory tier pathName ((store.history tier pathName).erase entry))
  | .sweep vaultId, db => if db.hasVault vaultId then db else db.setBlobs vaultId .empty

end ObSink.Server.Tables
