import Mathlib.Data.List.Sort
import ObSink.Lib.Select
import ObSink.Server.Account
import ObSink.Server.Devices
import ObSink.Server.Read
import ObSink.Server.Serial

/-! # The database

The tables of `server/migrations` and the blobs beside them, for all accounts at
once, with what a delete of one row takes along. Sealed columns come opened,
base64 decoded, and texts are ordered by their characters.
-/

namespace ObSink.Server.Tables

open Account (ApprovalColumns KeyColumns)

/-! ## Rows -/

structure UserRow where
  id : String
  email : Option String
  created : Nat
  keys : KeyColumns UInt8 := {}

structure DeviceRow where
  userId : String
  id : String
  name : String
  platform : String
  created : Nat
  lastSeen : Nat
  approval : ApprovalColumns UInt8 := {}

structure SessionRow where
  id : String
  userId : String
  deviceId : String
  tokenHash : Bytes
  created : Nat
  expires : Nat
  deriving DecidableEq

/-- A row of `invites`; who redeemed it is left to the sign-ups. -/
structure InviteRow where
  code : String
  createdBy : Option String
  created : Nat
  expires : Nat
  usedAt : Option Nat := none

/-- A row of `vaults`, with its rows of `files`. -/
structure VaultRow where
  id : String
  owner : String
  name : String
  created : Nat
  maxFileSize : Nat
  revision : Nat := 0
  lastWrite : Nat
  files : Manifest := ∅

structure MemberRow where
  vaultId : String
  userId : String
  role : String
  wrappedKey : Option Bytes
  created : Nat

/-- A row of `device_vaults`. -/
structure HoldingRow where
  userId : String
  deviceId : String
  vaultId : String
  attached : Nat
  lastSynced : Option Nat := none
  lastRevision : Option Nat := none

structure Db where
  users : List UserRow := []
  devices : List DeviceRow := []
  sessions : List SessionRow := []
  invites : List InviteRow := []
  vaults : List VaultRow := []
  members : List MemberRow := []
  holdings : List HoldingRow := []
  blobs : String → BlobStore := fun _ => .empty

/-- `ORDER BY` a number, then a text. -/
def ordered {α : Type} (key : α → Nat × String) (rows : List α) : List α :=
  rows.insertionSort fun a b =>
    (key a).1 < (key b).1 ∨ (key a).1 = (key b).1 ∧ (key a).2 ≤ (key b).2

def DeviceRow.isOf (userId deviceId : String) (row : DeviceRow) : Bool :=
  row.userId = userId && row.id = deviceId

def SessionRow.isOf (userId deviceId : String) (row : SessionRow) : Bool :=
  row.userId = userId && row.deviceId = deviceId

def MemberRow.isOf (vaultId userId : String) (row : MemberRow) : Bool :=
  row.vaultId = vaultId && row.userId = userId

def HoldingRow.isOf (userId deviceId vaultId : String) (row : HoldingRow) : Bool :=
  row.userId = userId && row.deviceId = deviceId && row.vaultId = vaultId

/-- Bytes of the files that are not deleted. -/
def VaultRow.bytes (row : VaultRow) : Nat :=
  ((row.files.toList.filter fun file => !file.2.deleted).map fun file => file.2.size).sum

namespace Db

def hasUser (db : Db) (id : String) : Bool := db.users.any (·.id = id)

def hasDevice (db : Db) (userId deviceId : String) : Bool :=
  db.devices.any (DeviceRow.isOf userId deviceId)

def hasVault (db : Db) (id : String) : Bool := db.vaults.any (·.id = id)

/-! ## Accounts -/

def updateDevice (db : Db) (userId deviceId : String) (change : DeviceRow → DeviceRow) : Db :=
  { db with devices := Select.changed (fun row => row.isOf userId deviceId) change db.devices }

/-- The key and the approval requests of an account. -/
def accountRows (db : Db) (userId : String) : Account.Rows UInt8 where
  keys := ((db.users.find? (·.id = userId)).map UserRow.keys).getD {}
  devices deviceId := (db.devices.find? (DeviceRow.isOf userId deviceId)).map DeviceRow.approval

/-- What a request leaves of them. -/
def setAccountRows (db : Db) (userId : String) (rows : Account.Rows UInt8) : Db :=
  { db with
    users := Select.changed (fun row => row.id = userId) (fun row => { row with keys := rows.keys })
      db.users
    devices := Select.changed (fun row => row.userId = userId)
      (fun row => { row with approval := (rows.devices row.id).getD row.approval }) db.devices }

/-- A known device keeps when it was created. -/
def upsertDevice (db : Db) (userId : String) (device : DeviceIdentity) (now : Nat) : Db :=
  if db.hasDevice userId device.id then
    db.updateDevice userId device.id fun row => { row with
      name := device.name, platform := device.platform, lastSeen := now, approval := {} }
  else
    { db with devices := db.devices ++
        [{ userId, id := device.id, name := device.name, platform := device.platform
           created := now, lastSeen := now }] }

/-- The new session of a device in place of the one it had. -/
def replaceSession (db : Db) (row : SessionRow) : Db :=
  { db with sessions :=
      (db.sessions.filter fun old => !old.isOf row.userId row.deviceId) ++ [row] }

/-- Another device has a session with this id or token. -/
def sessionTaken (db : Db) (row : SessionRow) : Bool :=
  db.sessions.any fun old =>
    !old.isOf row.userId row.deviceId && (old.id = row.id || old.tokenHash = row.tokenHash)

/-! ## Deletes, with the rows that refer to the deleted one -/

/-- `DELETE FROM devices` -/
def dropDevice (db : Db) (userId deviceId : String) : Db :=
  { db with
    devices := db.devices.filter fun row => !row.isOf userId deviceId
    sessions := db.sessions.filter fun row => !row.isOf userId deviceId
    holdings := db.holdings.filter fun row =>
      !(row.userId = userId && row.deviceId = deviceId) }

/-- `DELETE FROM vaults` -/
def dropVaults (db : Db) (gone : VaultRow → Bool) : Db :=
  let ids := (db.vaults.filter gone).map VaultRow.id
  { db with
    vaults := db.vaults.filter fun row => !gone row
    members := db.members.filter fun row => row.vaultId ∉ ids
    holdings := db.holdings.filter fun row => row.vaultId ∉ ids }

/-- `DELETE FROM users` -/
def dropUser (db : Db) (id : String) : Db :=
  let db := db.dropVaults fun row => row.owner = id
  { db with
    users := db.users.filter fun row => row.id ≠ id
    devices := db.devices.filter fun row => row.userId ≠ id
    sessions := db.sessions.filter fun row => row.userId ≠ id
    invites := db.invites.filter fun row => row.createdBy ≠ some id
    members := db.members.filter fun row => row.userId ≠ id
    holdings := db.holdings.filter fun row => row.userId ≠ id }

/-! ## Vaults -/

def updateVault (db : Db) (id : String) (change : VaultRow → VaultRow) : Db :=
  { db with vaults := Select.changed (fun row => row.id = id) change db.vaults }

/-- One vault as the routes of its files see it. -/
def state (db : Db) (vaultId : String) : State :=
  let row := db.vaults.find? (·.id = vaultId)
  { vault :=
      { id := vaultId
        members := (db.members.filter (·.vaultId = vaultId)).map MemberRow.userId
        maxFileSize := (row.map VaultRow.maxFileSize).getD 0
        files := (row.map VaultRow.files).getD ∅
        revision := (row.map VaultRow.revision).getD 0
        lastWrite := (row.map VaultRow.lastWrite).getD 0 }
    blobs := db.blobs vaultId }

def setBlobs (db : Db) (vaultId : String) (store : BlobStore) : Db :=
  { db with blobs := Function.update db.blobs vaultId store }

/-- What a write leaves of a vault. -/
def setState (db : Db) (vaultId : String) (state : State) : Db :=
  (db.updateVault vaultId fun row => { row with
    files := state.vault.files
    revision := state.vault.revision
    lastWrite := state.vault.lastWrite }).setBlobs vaultId state.blobs

def updateHolding (db : Db) (userId deviceId vaultId : String)
    (change : HoldingRow → HoldingRow) : Db :=
  { db with holdings :=
      Select.changed (fun row => row.isOf userId deviceId vaultId) change db.holdings }

def addHolding (db : Db) (row : HoldingRow) : Db := { db with holdings := db.holdings ++ [row] }

/-- A device holds a vault from now on, or takes the revision of a checkpoint;
the device has been seen. A row that refers to no device or vault is refused. -/
def attach (db : Db) (userId deviceId vaultId : String) (now : Nat) (revision : Option Nat) :
    Option Db :=
  let seen (db : Db) := db.updateDevice userId deviceId fun row => { row with lastSeen := now }
  if db.holdings.any (HoldingRow.isOf userId deviceId vaultId) then
    match revision with
    | none => some (seen db)
    | some revision =>
        some (seen (db.updateHolding userId deviceId vaultId fun row =>
          { row with lastSynced := some now, lastRevision := some revision }))
  else if db.hasDevice userId deviceId && db.hasVault vaultId then
    some (seen (db.addHolding
      { userId, deviceId, vaultId, attached := now
        lastSynced := revision.map fun _ => now, lastRevision := revision }))
  else none

def detach (db : Db) (userId deviceId vaultId : String) : Db :=
  { db with holdings := db.holdings.filter fun row => !row.isOf userId deviceId vaultId }

end Db

end ObSink.Server.Tables
