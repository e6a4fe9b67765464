import ObSink.Server.Blobs
import ObSink.Server.Envelope

/-! # Conflict-gated writes

`apply_put` and `apply_delete` of `server/src/routes/files.rs`, for one vault:
the rows of its manifest in the database and the blobs beside them. A write
checks, gates, changes the blob and then commits the row; `now` is read before
the vault row is locked.
-/

namespace ObSink.Server

open Aead (Nonce)

inductive ApiError where
  | status (code : Nat) (message : String)
  | conflict (path : String) (current : Option FileEntry)
  | internal (message : String)
  deriving DecidableEq, Repr

def ApiError.statusCode : ApiError → Nat
  | .status code _ => code
  | .conflict _ _ => 409
  | .internal _ => 500

/-- The vault row, its members and its `files` rows, keyed by path token. -/
structure Vault where
  id : String
  members : List String
  maxFileSize : Nat
  files : Manifest
  revision : Nat
  lastWrite : Nat

/-- What a request reads besides the vault. `pathName` is the hex SHA-256 of
a path token. -/
structure Config where
  aead : Aead
  keys : ServerKeys
  pathName : String → String
  maxVaultBytes : Nat

structure State where
  vault : Vault
  blobs : BlobStore

def maxPathBytes : Nat := 1024

def validPath (path : String) : Bool :=
  path ≠ "" && path.utf8ByteSize ≤ maxPathBytes && !path.toList.contains (Char.ofNat 0)

def isHexDigit (c : Char) : Bool :=
  ('0' ≤ c && c ≤ '9') || ('a' ≤ c && c ≤ 'f') || ('A' ≤ c && c ≤ 'F')

def validVaultId (id : String) : Bool :=
  match "vault_".toList.isPrefixOf? id.toList with
  | some rest => rest.length = 36 && rest.all fun c => isHexDigit c || c = '-'
  | none => false

def quotaMessage : String := "vault storage limit reached"

/-- A failed database statement or filesystem operation is an internal error. -/
def internally {α : Type} : Except String α → Except ApiError α
  | .ok value => .ok value
  | .error message => .error (.internal message)

@[simp] theorem internally_ok {α : Type} (value : α) :
    internally (.ok value) = .ok value := rfl

/-- A caller who is not a member cannot tell the vault from a missing one. -/
def requireMember (fault : Option Fault) (vault : Vault) (userId : String) :
    Except ApiError Unit := do
  if validVaultId vault.id = false then
    throw (.status 404 "vault not found")
  internally (attempt fault .requireMember)
  if userId ∉ vault.members then
    throw (.status 404 "vault not found")

/-- Membership, then the vault row `FOR UPDATE`. -/
def lockVault (fault : Option Fault) (vault : Vault) (userId : String) :
    Except ApiError Unit := do
  requireMember fault vault userId
  internally (attempt fault .lockVault)

/-- Bytes of the live rows, the row of `path` left out. -/
def usedBytes (files : Manifest) (path : String) : Nat :=
  ((files.toList.filter fun row => !row.2.deleted && row.1 != path).map fun row => row.2.size).sum

structure PutParams where
  path : String
  parentHash : Option String
  contentHash : Option String
  encPath : Option String
  deriving DecidableEq, Repr

/-- The content hash a put presents: trimmed, and absent when blank. -/
def PutParams.hash (params : PutParams) : Option String :=
  (params.contentHash.map Text.trim).filter (· ≠ "")

/-- What the checks of a put come to. -/
inductive PutAdmission where
  /-- A retried upload whose first attempt landed. -/
  | alreadyThere
  | write (contentHash : String) (current : Option FileEntry)
  deriving DecidableEq, Repr

/-- The parent-hash gate of a put, with the retry shortcut. -/
def gatePut (current : Option FileEntry) (params : PutParams) (contentHash : String) :
    Except ApiError PutAdmission :=
  match current with
  | none => .ok (.write contentHash none)
  | some entry =>
      if entry.hash ≠ params.parentHash.getD "" then
        if !entry.deleted && entry.hash = contentHash then .ok .alreadyThere
        else .error (.conflict params.path (some entry))
      else .ok (.write contentHash (some entry))

/-- The checks of `apply_put` before the gate; the content hash it stores. -/
def checkPut (config : Config) (fault : Option Fault) (vault : Vault) (userId : String)
    (params : PutParams) (size : Nat) : Except ApiError String := do
  if validPath params.path = false then
    throw (.status 400 "invalid path")
  let contentHash ← match params.hash with
    | some contentHash => pure contentHash
    | none => throw (.status 400 "missing X-Content-Hash header")
  internally (attempt fault .begin)
  lockVault fault vault userId
  internally (attempt fault .currentEntry)
  if size > vault.maxFileSize then
    throw (.status 413 "file too large")
  internally (attempt fault .usedBytes)
  if usedBytes vault.files params.path + size > config.maxVaultBytes then
    throw (.status 507 quotaMessage)
  pure contentHash

/-- Every check of `apply_put`, up to and including the gate. -/
def admitPut (config : Config) (fault : Option Fault) (vault : Vault) (userId : String)
    (params : PutParams) (size : Nat) : Except ApiError PutAdmission :=
  match checkPut config fault vault userId params size with
  | .error error => .error error
  | .ok contentHash => gatePut vault.files[params.path]? params contentHash

/-- The checks of `apply_delete` before the gate. -/
def checkDelete (fault : Option Fault) (vault : Vault) (userId path : String) :
    Except ApiError Unit := do
  if validPath path = false then
    throw (.status 400 "invalid path")
  internally (attempt fault .begin)
  lockVault fault vault userId
  internally (attempt fault .currentEntry)

/-- The parent-hash gate of a delete; the entry that is about to be deleted. -/
def gateDelete (current : Option FileEntry) (path : String) (parentHash : Option String) :
    Except ApiError (Option FileEntry) :=
  match current with
  | none => .ok none
  | some entry =>
      if entry.hash ≠ parentHash.getD "" then .error (.conflict path (some entry))
      else .ok (some entry)

/-- Every check of `apply_delete`, up to and including the gate. -/
def admitDelete (fault : Option Fault) (vault : Vault) (userId path : String)
    (parentHash : Option String) : Except ApiError (Option FileEntry) :=
  match checkDelete fault vault userId path with
  | .error error => .error error
  | .ok () => gateDelete vault.files[path]? path parentHash

/-- The row a put writes. A put that brings no `encPath` keeps the old one. -/
def putEntry (params : PutParams) (contentHash : String) (current : Option FileEntry)
    (now size : Nat) : FileEntry where
  hash := contentHash
  modified := now
  size := size
  deleted := false
  encPath :=
    ((params.encPath.filter (· ≠ "")).or (current.map FileEntry.encPath)).getD ""

/-- The row a delete writes; a never-uploaded path still leaves a tombstone. -/
def tombstone (current : Option FileEntry) (now : Nat) : FileEntry where
  hash := (current.map FileEntry.hash).getD ""
  modified := now
  size := (current.map FileEntry.size).getD 0
  deleted := true
  encPath := (current.map FileEntry.encPath).getD ""

def Vault.upsertEntry (vault : Vault) (path : String) (entry : FileEntry) (now : Nat) : Vault :=
  { vault with
    files := vault.files.insert path entry
    revision := vault.revision + 1
    lastWrite := now }

/-- Upsert the row, bump the revision, commit. -/
def commitEntry (fault : Option Fault) (vault : Vault) (path : String) (entry : FileEntry)
    (now : Nat) : Except String Vault := do
  attempt fault .upsertEntry
  attempt fault .bumpRevision
  attempt fault .commit
  pure (vault.upsertEntry path entry now)

/-- How a write that succeeded went. -/
inductive Outcome where
  | alreadyThere
  | written (entry : FileEntry)
  deriving DecidableEq, Repr

/-- The conflict-gated upload. -/
def applyPut (config : Config) (fault : Option Fault) (now : Nat) (nonce : Nonce)
    (userId : String) (params : PutParams) (body : Bytes) (state : State) :
    Except ApiError Outcome × State :=
  match admitPut config fault state.vault userId params body.length with
  | .error error => (.error error, state)
  | .ok .alreadyThere => (.ok .alreadyThere, state)
  | .ok (.write contentHash current) =>
      let entry := putEntry params contentHash current now body.length
      let sealed := sealBlob config.aead config.keys nonce state.vault.id params.path body
      let archive := current.any fun entry => !entry.deleted
      match state.blobs.replaceLive fault (config.pathName params.path) sealed archive now with
      | (.error message, blobs) => (.error (.internal message), { state with blobs })
      | (.ok undo, blobs) =>
          match commitEntry fault state.vault params.path entry now with
          | .error message => (.error (.internal message), { state with blobs := blobs.undo undo })
          | .ok vault => (.ok (.written entry), { vault, blobs })

/-- The conflict-gated soft delete. -/
def applyDelete (config : Config) (fault : Option Fault) (now : Nat) (userId path : String)
    (parentHash : Option String) (state : State) : Except ApiError Outcome × State :=
  match admitDelete fault state.vault userId path parentHash with
  | .error error => (.error error, state)
  | .ok current =>
      let entry := tombstone current now
      match state.blobs.trashLive fault (config.pathName path) now with
      | (.error message, blobs) => (.error (.internal message), { state with blobs })
      | (.ok undo, blobs) =>
          match commitEntry fault state.vault path entry now with
          | .error message => (.error (.internal message), { state with blobs := blobs.undo undo })
          | .ok vault => (.ok (.written entry), { vault, blobs })

/-- A write, single or out of a batch. -/
inductive Request where
  | put (params : PutParams) (body : Bytes)
  | delete (path : String) (parentHash : Option String)
  deriving DecidableEq, Repr

def Request.path : Request → String
  | .put params _ => params.path
  | .delete path _ => path

def applyRequest (config : Config) (fault : Option Fault) (now : Nat) (nonce : Nonce)
    (userId : String) (request : Request) (state : State) : Except ApiError Outcome × State :=
  match request with
  | .put params body => applyPut config fault now nonce userId params body state
  | .delete path parentHash => applyDelete config fault now userId path parentHash state

/-! ## A small vault for concrete runs -/

def sampleConfig : Config where
  aead := .padded
  keys := { blobEnc := [] }
  pathName := fun path => path
  maxVaultBytes := 1000

/-- A vault with one member and no files. -/
def emptyVault : Vault where
  id := "vault_00000000-0000-4000-8000-000000000000"
  members := ["user_1"]
  maxFileSize := 100
  files := ∅
  revision := 0
  lastWrite := 0

/-- One live file, `note`, with its blob. -/
def sampleState : State where
  vault := emptyVault.upsertEntry "note" { hash := "h", modified := 1, size := 2 } 1
  blobs := BlobStore.empty.setLive "note"
    (some (sealBlob .padded { blobEnc := [] } Aead.zeroNonce emptyVault.id "note" [104, 105]))

/-! ## Inversion of the gates -/

theorem gatePut_write {current : Option FileEntry} {params : PutParams} {hash contentHash : String}
    {entry : Option FileEntry}
    (hgate : gatePut current params hash = .ok (.write contentHash entry)) :
    contentHash = hash ∧ entry = current ∧
      ∀ row, current = some row → row.hash = params.parentHash.getD "" := by
  unfold gatePut at hgate
  cases current with
  | none =>
      obtain ⟨rfl, rfl⟩ := PutAdmission.write.inj (Except.ok.inj hgate)
      exact ⟨rfl, rfl, by simp⟩
  | some row =>
      simp only at hgate
      split at hgate
      next hne =>
        split at hgate <;> cases hgate
      next heq =>
        obtain ⟨rfl, rfl⟩ := PutAdmission.write.inj (Except.ok.inj hgate)
        refine ⟨rfl, rfl, ?_⟩
        intro other hother
        obtain rfl := Option.some.inj hother
        simpa using heq

theorem admitPut_write {config : Config} {fault : Option Fault} {vault : Vault}
    {userId : String} {params : PutParams} {size : Nat} {contentHash : String}
    {current : Option FileEntry}
    (hadmits : admitPut config fault vault userId params size =
      .ok (.write contentHash current)) :
    checkPut config fault vault userId params size = .ok contentHash ∧
      current = vault.files[params.path]? ∧
      ∀ row, vault.files[params.path]? = some row → row.hash = params.parentHash.getD "" := by
  unfold admitPut at hadmits
  split at hadmits
  next => cases hadmits
  next hash hcheck =>
    obtain ⟨rfl, hcurrent, hparent⟩ := gatePut_write hadmits
    exact ⟨hcheck, hcurrent, hparent⟩

theorem gateDelete_ok {current entry : Option FileEntry} {path : String}
    {parentHash : Option String} (hgate : gateDelete current path parentHash = .ok entry) :
    entry = current ∧ ∀ row, current = some row → row.hash = parentHash.getD "" := by
  unfold gateDelete at hgate
  cases current with
  | none =>
      obtain rfl := Except.ok.inj hgate
      exact ⟨rfl, by simp⟩
  | some row =>
      simp only at hgate
      split at hgate
      next => cases hgate
      next heq =>
        obtain rfl := Except.ok.inj hgate
        refine ⟨rfl, ?_⟩
        intro other hother
        obtain rfl := Option.some.inj hother
        simpa using heq

theorem admitDelete_ok {fault : Option Fault} {vault : Vault} {userId path : String}
    {parentHash : Option String} {current : Option FileEntry}
    (hadmits : admitDelete fault vault userId path parentHash = .ok current) :
    checkDelete fault vault userId path = .ok () ∧ current = vault.files[path]? ∧
      ∀ row, vault.files[path]? = some row → row.hash = parentHash.getD "" := by
  unfold admitDelete at hadmits
  split at hadmits
  next => cases hadmits
  next hcheck =>
    obtain ⟨hcurrent, hparent⟩ := gateDelete_ok hadmits
    exact ⟨hcheck, hcurrent, hparent⟩

/-! ## The checks, with no fault -/

/-- The checks of a put before the gate, in order. -/
theorem checkPut_none (config : Config) (vault : Vault) (userId : String) (params : PutParams)
    (size : Nat) :
    checkPut config none vault userId params size =
      if validPath params.path = false then .error (.status 400 "invalid path")
      else match params.hash with
        | none => .error (.status 400 "missing X-Content-Hash header")
        | some contentHash =>
            if validVaultId vault.id = false then .error (.status 404 "vault not found")
            else if userId ∉ vault.members then .error (.status 404 "vault not found")
            else if size > vault.maxFileSize then .error (.status 413 "file too large")
            else if usedBytes vault.files params.path + size > config.maxVaultBytes then
              .error (.status 507 quotaMessage)
            else .ok contentHash := by
  simp only [checkPut, lockVault, requireMember, attempt_none, internally_ok, bind, Except.bind,
    throw, throwThe, MonadExceptOf.throw, pure, Except.pure]
  by_cases hpath : validPath params.path = false
  · simp only [hpath, ↓reduceIte]
  · simp only [hpath]
    cases params.hash with
    | none => rfl
    | some contentHash =>
        by_cases hid : validVaultId vault.id = false
        · simp [hid]
        · by_cases hmember : userId ∈ vault.members
          · by_cases hsize : size > vault.maxFileSize
            · simp [hid, hmember, hsize]
            · by_cases hquota : usedBytes vault.files params.path + size > config.maxVaultBytes
              · simp [hid, hmember, hsize, hquota]
              · simp [hid, hmember, hsize, hquota]
          · simp [hid, hmember]

theorem checkDelete_none (vault : Vault) (userId path : String) :
    checkDelete none vault userId path =
      if validPath path = false then .error (.status 400 "invalid path")
      else if validVaultId vault.id = false then .error (.status 404 "vault not found")
      else if userId ∉ vault.members then .error (.status 404 "vault not found")
      else .ok () := by
  simp only [checkDelete, lockVault, requireMember, attempt_none, internally_ok, bind, Except.bind,
    throw, throwThe, MonadExceptOf.throw, pure, Except.pure]
  by_cases hpath : validPath path = false
  · simp only [hpath, ↓reduceIte]
  · by_cases hid : validVaultId vault.id = false
    · simp [hpath, hid]
    · by_cases hmember : userId ∈ vault.members
      · simp [hpath, hid, hmember]
      · simp [hpath, hid, hmember]

/-- A refusal before the gate is never a conflict. -/
theorem checkPut_error_status {config : Config} {vault : Vault} {userId : String}
    {params : PutParams} {size : Nat} {error : ApiError}
    (herror : checkPut config none vault userId params size = .error error) :
    ∃ code message, error = .status code message := by
  rw [checkPut_none] at herror
  repeat' split at herror
  all_goals first
    | exact ⟨_, _, (Except.error.inj herror).symm⟩
    | cases herror

theorem checkDelete_error_status {vault : Vault} {userId path : String} {error : ApiError}
    (herror : checkDelete none vault userId path = .error error) :
    ∃ code message, error = .status code message := by
  rw [checkDelete_none] at herror
  repeat' split at herror
  all_goals first
    | exact ⟨_, _, (Except.error.inj herror).symm⟩
    | cases herror

theorem checkPut_ok_hash {config : Config} {fault : Option Fault} {vault : Vault} {userId : String}
    {params : PutParams} {size : Nat} {contentHash : String}
    (hok : checkPut config fault vault userId params size = .ok contentHash) :
    params.hash = some contentHash := by
  unfold checkPut at hok
  cases hhash : params.hash with
  | none =>
      simp only [hhash, bind, Except.bind, throw, throwThe, MonadExceptOf.throw] at hok
      repeat' split at hok
      all_goals cases hok
  | some hash =>
      simp only [hhash, bind, Except.bind, throw, throwThe, MonadExceptOf.throw, pure,
        Except.pure] at hok
      repeat' split at hok
      all_goals first
        | (cases hok; done)
        | exact congrArg some (Except.ok.inj hok)

@[simp] theorem commitEntry_none (vault : Vault) (path : String) (entry : FileEntry)
    (now : Nat) : commitEntry none vault path entry now = .ok (vault.upsertEntry path entry now) :=
  rfl

end ObSink.Server
