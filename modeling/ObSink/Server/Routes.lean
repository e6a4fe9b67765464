import ObSink.Lib.Apart
import ObSink.Server.Statements

/-! # The routes

Every route behind a bearer token, and the sign-in of an account that exists, as
a program of statements. Requests run at the same time, so anything may happen
between two statements. A request carries the times it reads and what it makes
up: ids, tokens, codes.
-/

namespace ObSink.Server.Tables

open Account (ApproveBody BodyField SetKeysBody)

/-- A program of the server. -/
abbrev Handler := Prog Statement Statement.Reply

def query (statement : Statement) : Handler statement.Reply := Prog.perform statement

/-! ## Bearers and members -/

/-- What follows `Bearer `, if it can be a token. -/
def bearer (authorization : Option String) : Option String :=
  let token := (authorization.bind fun value =>
    "Bearer ".toList.isPrefixOf? value.toList).map fun rest => Text.trim (String.ofList rest)
  token.filter fun token => token ≠ "" && "os_".toList.isPrefixOf token.toList

def resolve (config : RouteConfig) (authorization : Option String) (now : Nat) :
    Handler (Option Principal) :=
  match bearer authorization with
  | none => return none
  | some token => query (.session (config.tokenHash token) now)

inductive Role where
  | owner
  | member
  deriving DecidableEq, Repr

def memberRole (vaultId userId : String) : Handler (Except ApiError Role) :=
  if validVaultId vaultId = false then return .error vaultNotFound
  else do
    match ← query (.role vaultId userId) with
    | none => return .error vaultNotFound
    | some role => return .ok (if role = "owner" then .owner else .member)

/-- `require_member` -/
def asMember (vaultId userId : String) (next : Handler Response) : Handler Response := do
  match ← memberRole vaultId userId with
  | .error error => return .error error
  | .ok _ => next

/-- `require_owner` -/
def asOwner (vaultId userId : String) (next : Handler Response) : Handler Response := do
  match ← memberRole vaultId userId with
  | .error error => return .error error
  | .ok .member => return .error (.status 403 "only the owner can do that")
  | .ok .owner => next

/-! ## `routes/me.rs` -/

def usageFor (config : RouteConfig) (userId : String) : Handler Usage := do
  let vaults ← query (.usage userId)
  return {
    vaults
    totalBytes := (vaults.map VaultUsage.bytes).sum
    maxVaultBytes := config.maxVaultBytes
    maxVaults := config.maxVaultsPerUser }

def summary (principal : Principal) (now : Nat) (row : DeviceRow × List String) :
    DeviceSummary where
  id := row.1.id
  name := row.1.name
  platform := row.1.platform
  created := row.1.created
  lastSeen := row.1.lastSeen
  current := row.1.id = principal.deviceId
  vaultIds := row.2
  approval := row.1.approval.summary now

def me (config : RouteConfig) (principal : Principal) (now : Nat) : Handler Response := do
  let usage ← usageFor config principal.userId
  match ← query (.user principal.userId) with
  | none => return .error unauthorized
  | some user =>
      let devices ← query (.devices principal.userId)
      return .ok (.me user (devices.map (summary principal now)) usage)

/-- `devices::delete`, for this device or another one of the account. -/
def revokeDevice (principal : Principal) (deviceId : String) : Handler Response := do
  if ← query (.deleteDevice principal.userId deviceId) then return .ok .noContent
  else return .error deviceNotFound

def signOut (principal : Principal) : Handler Response :=
  revokeDevice principal principal.deviceId

def renameDevice (principal : Principal) (deviceId : String) (name : Option String) :
    Handler Response := do
  if ← query (.renameDevice principal.userId deviceId (cleanDeviceName name)) then
    return .ok .noContent
  else return .error deviceNotFound

def removeAllBlobs : List String → Handler Unit
  | [] => return ()
  | id :: rest => do
      query (.removeBlobs id)
      removeAllBlobs rest

/-- The transaction with its two statements, then the directories. What the
source does when one of them fails is left out. -/
def deleteAccount (principal : Principal) : Handler Response := do
  let vaultIds ← query (.deleteVaultsOf principal.userId)
  query (.deleteUser principal.userId)
  removeAllBlobs vaultIds
  return .ok .noContent

def inviteTtlSecs : Nat := 7 * 24 * 60 * 60

/-- `invites::create`, with so many attempts left. -/
def mintInvite (createdBy : String) (now : Nat) : (attempts : Nat) → (codes : Nat → String) →
    Handler Response
  | 0, _ => return .error (.internal "could not allocate an unused invite code")
  | attempts + 1, codes => do
      match ← query (.insertInvite (codes 0) createdBy now (now + inviteTtlSecs)) with
      | none => return .error violated
      | some true =>
          return .ok (.invite
            { code := codes 0, created := now, expires := now + inviteTtlSecs
              status := "active", usedAt := none })
      | some false => mintInvite createdBy now attempts fun i => codes (i + 1)

def inviteInfo (now : Nat) (row : InviteRow) : InviteInfo where
  code := row.code
  created := row.created
  expires := row.expires
  status :=
    if row.usedAt.isSome then "used" else if row.expires ≤ now then "expired" else "active"
  usedAt := row.usedAt

def listInvites (principal : Principal) (now : Nat) : Handler Response := do
  let rows ← query (.invites principal.userId)
  return .ok (.invites (rows.map (inviteInfo now)))

/-! ## `routes/vaults.rs` -/

/-- The vaults of a member with the devices that hold each. -/
def listVaults (principal : Principal) : Handler Response := do
  let rows ← query (.vaultsOf principal.userId)
  let holders ← query (.holdersOf principal.userId)
  return .ok (.vaults (rows.map fun row =>
    { id := row.1.id
      name := row.1.name
      created := row.1.created
      maxFileSize := row.1.maxFileSize
      revision := row.1.revision
      lastWrite := row.1.lastWrite
      bytes := row.1.bytes
      wrappedKey := row.2.wrappedKey
      devices := (holders.filter (·.1.vaultId = row.1.id)).map fun holder =>
        { id := holder.2.id, name := holder.2.name, platform := holder.2.platform
          lastSynced := holder.1.lastSynced, lastRevision := holder.1.lastRevision } }))

/-- The name of a vault as a body gives it. -/
def givenName (name : Option String) : String := (name.map Text.trim).getD ""

def createVault (config : RouteConfig) (principal : Principal) (body : Storage.CreateBody)
    (minted : String) (now : Nat) : Handler Response :=
  match body.check config.toStorageConfig minted with
  | .error error => return .error error
  | .ok (id, maxFileSize) => do
      let name := givenName body.name
      let wrappedKey := match body.wrappedKey with
        | .bytes bytes => bytes
        | _ => []
      let row : VaultRow :=
        { id, owner := principal.userId, name, created := now, maxFileSize, lastWrite := now }
      match ← query (.createVault row wrappedKey) with
      | .error error => return .error error
      | .ok () =>
          return .ok (.vault
            { id, name, created := now, maxFileSize, revision := 0, lastWrite := now, bytes := 0
              wrappedKey := some wrappedKey, devices := [] })

def renameVault (principal : Principal) (vaultId : String) (name : Option String) :
    Handler Response :=
  if givenName name = "" then return .error (.status 400 "vault name is required")
  else
    asOwner vaultId principal.userId do
      query (.renameVault vaultId (givenName name))
      return .ok .noContent

def deleteVault (principal : Principal) (vaultId : String) : Handler Response :=
  asOwner vaultId principal.userId do
    if ← query (.deleteVault vaultId principal.userId) then do
      query (.removeBlobs vaultId)
      return .ok .noContent
    else return .error vaultNotFound

def attachSelf (principal : Principal) (vaultId : String) (revision : Option Nat) (now : Nat) :
    Handler Response :=
  asMember vaultId principal.userId do
    if ← query (.attach principal.userId principal.deviceId vaultId now revision) then
      return .ok .noContent
    else return .error violated

def detachSelf (principal : Principal) (vaultId : String) : Handler Response :=
  asMember vaultId principal.userId do
    query (.detach principal.userId principal.deviceId vaultId)
    return .ok .noContent

/-! ## `routes/files.rs`, `routes/batch.rs` -/

def manifestRoute (principal : Principal) (vaultId : String) (ifNoneMatch : Option String) :
    Handler Response := do
  return (← query (.manifest vaultId principal.userId ifNoneMatch)).map Answer.manifest

/-- What is made of a sealed blob, if there is one. -/
def opened (config : RouteConfig) (vaultId path : String) : Option Bytes → Response
  | none => .error (.status 404 "not_found")
  | some sealed =>
      match openBlob config.aead config.keys vaultId path sealed with
      | .ok bytes => .ok (.blob bytes)
      | .error error => .error (.internal error.text)

def fileRoute (config : RouteConfig) (principal : Principal) (vaultId path : String) :
    Handler Response :=
  asMember vaultId principal.userId do
    if validPath path = false then return .error (.status 404 "not_found")
    else return opened config vaultId path (← query (.live vaultId (config.pathName path)))

/-- `apply_put` or `apply_delete`, on its own. -/
def writeRoute (principal : Principal) (vaultId : String) (moment : Moment) (request : Request) :
    Handler Response := do
  return (← query (.write vaultId (moment.call principal.userId request))).map fun _ => .done

def putFileRoute (config : RouteConfig) (principal : Principal) (vaultId path : String)
    (headers : Headers) (moment : Moment) (body : Bytes) : Handler Response :=
  if body.length > config.maxFileBytes then return .error (.status 413 "file too large")
  else
    writeRoute principal vaultId moment
      (.put ⟨path, headerStr headers.parentHash, headerStr headers.contentHash,
        headerStr headers.encPath⟩ body)

def deleteFileRoute (principal : Principal) (vaultId path : String) (headers : Headers)
    (moment : Moment) : Handler Response :=
  writeRoute principal vaultId moment (.delete path (headerStr headers.parentHash))

def applyOps (principal : Principal) (vaultId : String) :
    (moments : Nat → Moment) → (ops : List ParsedOp) →
    Handler (Except ApiError (List BatchOperationResult))
  | _, [] => return .ok []
  | moments, op :: rest => do
      let outcome ← query (.write vaultId ((moments 0).call principal.userId op.request))
      match operationResult op.path outcome with
      | .error error => return .error error
      | .ok result =>
          return (← applyOps principal vaultId (fun i => moments (i + 1)) rest).map (result :: ·)

def batchRoute (config : RouteConfig) (principal : Principal) (vaultId : String)
    (moments : Nat → Moment) (multipart : Except MultipartRejection Multipart) :
    Handler Response :=
  match multipart with
  | .error .invalidBoundary => return .error (.status 415 "batch requires multipart/form-data")
  | .error .other => return .error (badRequest "malformed multipart body")
  | .ok multipart =>
      match parseBatch config.serde multipart with
      | .error error => return .error error
      | .ok ops => do
          return (← applyOps principal vaultId moments ops).map Answer.results

/-! ## `routes/history.rs` -/

def listVersions (config : RouteConfig) (principal : Principal) (vaultId path : String) :
    Handler Response :=
  asMember vaultId principal.userId do
    if validPath path = false then return .error (.status 404 "not_found")
    else do
      let dir ← query (.history vaultId .versions (config.pathName path))
      return .ok (.versions ((listHistory dir).map fun name =>
        { name, ts := extractTimestamp name, size := (dir[name]?.getD []).length }))

def getVersion (config : RouteConfig) (principal : Principal) (vaultId name path : String) :
    Handler Response :=
  asMember vaultId principal.userId do
    if validPath path = false then return .error (.status 404 "not_found")
    else do
      let dir ← query (.history vaultId .versions (config.pathName path))
      return opened config vaultId path (getHistory dir name)

/-- The tombstones that have an encrypted path, the latest first. -/
def listTrash (principal : Principal) (vaultId : String) : Handler Response :=
  asMember vaultId principal.userId do
    let files ← query (.files vaultId)
    let gone := files.toList.filter fun file => file.2.deleted && file.2.encPath ≠ ""
    let latest := gone.insertionSort fun a b =>
      b.2.modified < a.2.modified ∨ a.2.modified = b.2.modified ∧ a.1 ≤ b.1
    return .ok (.trash (latest.map fun file =>
      { path := file.1, encPath := file.2.encPath, hash := file.2.hash, size := file.2.size
        deletedAt := file.2.modified }))

/-- The newest entry is looked up by its name after the directory was listed. -/
def getTrash (config : RouteConfig) (principal : Principal) (vaultId path : String) :
    Handler Response :=
  asMember vaultId principal.userId do
    if validPath path = false then return .error (.status 404 "not_found")
    else do
      match listHistory (← query (.history vaultId .trash (config.pathName path))) with
      | [] => return .error (.status 404 "not_found")
      | newest :: _ =>
          let dir ← query (.history vaultId .trash (config.pathName path))
          return opened config vaultId path (getHistory dir newest)

/-! ## Requests -/

inductive Route where
  | me
  | signOut
  | revokeDevice (deviceId : String)
  | renameDevice (deviceId : String) (name : Option String)
  | deleteAccount
  | createInvite (codes : Nat → String)
  | listInvites
  | getKeys
  | setKeys (body : SetKeysBody UInt8) (keyId : String)
  | rewrapKeys (body : SetKeysBody UInt8)
  | registerApproval (publicKey : BodyField UInt8)
  | pollApproval
  | cancelApproval
  | approveDevice (deviceId : String) (body : ApproveBody UInt8)
  | listVaults
  | createVault (body : Storage.CreateBody) (minted : String)
  | renameVault (vaultId : String) (name : Option String)
  | deleteVault (vaultId : String)
  | attachSelf (vaultId : String) (revision : Option Nat)
  | detachSelf (vaultId : String)
  | getManifest (vaultId : String) (ifNoneMatch : Option String)
  | getFile (vaultId path : String)
  | putFile (vaultId path : String) (headers : Headers) (moment : Moment) (body : Bytes)
  | deleteFile (vaultId path : String) (headers : Headers) (moment : Moment)
  | batch (vaultId : String) (moments : Nat → Moment)
      (multipart : Except MultipartRejection Multipart)
  | listVersions (vaultId path : String)
  | getVersion (vaultId name path : String)
  | listTrash (vaultId : String)
  | getTrash (vaultId path : String)
  /-- A body that is not the JSON its route takes. -/
  | badBody

def dispatch (config : RouteConfig) (principal : Principal) (now : Nat) :
    Route → Handler Response
  | .me => me config principal now
  | .signOut => signOut principal
  | .revokeDevice deviceId => revokeDevice principal deviceId
  | .renameDevice deviceId name => renameDevice principal deviceId name
  | .deleteAccount => deleteAccount principal
  | .createInvite codes => mintInvite principal.userId now 8 codes
  | .listInvites => listInvites principal now
  | .getKeys => query (.account principal.userId .current)
  | .setKeys body keyId => query (.account principal.userId (.set body keyId))
  | .rewrapKeys body => query (.account principal.userId (.rewrap body))
  | .registerApproval publicKey =>
      query (.account principal.userId (.register principal.deviceId publicKey now))
  | .pollApproval => query (.account principal.userId (.poll principal.deviceId now))
  | .cancelApproval => query (.account principal.userId (.cancel principal.deviceId))
  | .approveDevice deviceId body =>
      query (.account principal.userId (.approve principal.deviceId deviceId body now))
  | .listVaults => listVaults principal
  | .createVault body minted => createVault config principal body minted now
  | .renameVault vaultId name => renameVault principal vaultId name
  | .deleteVault vaultId => deleteVault principal vaultId
  | .attachSelf vaultId revision => attachSelf principal vaultId revision now
  | .detachSelf vaultId => detachSelf principal vaultId
  | .getManifest vaultId ifNoneMatch => manifestRoute principal vaultId ifNoneMatch
  | .getFile vaultId path => fileRoute config principal vaultId path
  | .putFile vaultId path headers moment body =>
      putFileRoute config principal vaultId path headers moment body
  | .deleteFile vaultId path headers moment =>
      deleteFileRoute principal vaultId path headers moment
  | .batch vaultId moments multipart => batchRoute config principal vaultId moments multipart
  | .listVersions vaultId path => listVersions config principal vaultId path
  | .getVersion vaultId name path => getVersion config principal vaultId name path
  | .listTrash vaultId => listTrash principal vaultId
  | .getTrash vaultId path => getTrash config principal vaultId path
  | .badBody => return .error (.status 400 "body must be JSON")

/-- A request with its header and the clock as the bearer is looked up and as
the route reads it; or a sign-in that has found its account. -/
inductive Incoming where
  | route (authorization : Option String) (resolvedAt now : Nat) (route : Route)
  | signIn (userId : String) (email : Option String) (device : DeviceIdentity)
      (sessionId token : String) (now : Nat)

def Incoming.handle (config : RouteConfig) : Incoming → Handler Response
  | .route authorization resolvedAt now asked => do
      match ← resolve config authorization resolvedAt with
      | none => return .error unauthorized
      | some principal => dispatch config principal now asked
  | .signIn userId email device sessionId token now => do
      if ← query (.signIn userId device sessionId (config.tokenHash token) now) then
        return .ok (.session token sessionId (now + sessionTtlSecs) userId email)
      else return .error violated

/-- The server: any number of requests under way. -/
def serving (config : RouteConfig) :
    Apart.System Statement Statement.Reply Db Incoming Response Outside where
  perform := Statement.run config
  happen := Outside.act
  start := Incoming.handle config

end ObSink.Server.Tables
