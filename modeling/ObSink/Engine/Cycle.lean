import ObSink.Core.Rules
import ObSink.Engine.Effect
import ObSink.Manifest

/-! # The sync cycle

`prepare_sync` and `complete_sync` of `core/src/sync_engine.rs`, with what they
call there and in `core/src/api_client.rs`, as programs over the operations of
`Engine.Effect`. Progress reports and the checkpoint report to the server are
left out: nothing depends on them.
-/

namespace ObSink.Engine

open Prog (perform)

/-! ## The remote manifest -/

inductive ManifestFetch where
  | modified (manifest : Manifest) (etag : Option String)
  | notModified

/-- Re-key one row by its real path. A row without an encrypted path cannot be
named and is skipped. -/
def decodeRow (crypto : Crypto) (decoded : Manifest) (entry : FileEntry) :
    Except CryptoError Manifest :=
  if entry.encPath = "" then .ok decoded
  else
    match crypto.decryptPath entry.encPath with
    | .ok path => .ok (decoded.insert path entry)
    | .error error => .error error

def decodeManifest (crypto : Crypto) (rows : Manifest) : Except CryptoError Manifest :=
  (rows.toList.map Prod.snd).foldlM (decodeRow crypto) ∅

def getManifestIfChanged (crypto : Crypto) (ifNoneMatch : Option String) :
    Eff (Except ApiError ManifestFetch) := do
  match ← perform (Effect.getManifest ifNoneMatch) with
  | .error error => pure (.error error)
  | .ok .notModified => pure (.ok .notModified)
  | .ok (.rows rows etag) =>
      match decodeManifest crypto rows with
      | .error error => pure (.error (.crypto error))
      | .ok manifest => pure (.ok (.modified manifest (some etag)))

/-- The server manifest through the on-disk cache: the cached copy on 304, a
refreshed cache on 200. -/
def fetchRemoteManifest (crypto : Crypto) : Eff (Except SyncEngineError Manifest) := do
  let cached := (← perform Effect.loadRemoteCache).filter fun cache => cache.etag.isSome
  match ← getManifestIfChanged crypto (cached.bind RemoteManifestCache.etag) with
  | .error error => pure (.error (.api error))
  | .ok .notModified =>
      match cached with
      | some cache => pure (.ok cache.manifest)
      | none =>
          match ← getManifestIfChanged crypto none with
          | .error error => pure (.error (.api error))
          | .ok (.modified manifest _) => pure (.ok manifest)
          | .ok .notModified => pure (.ok ∅)
  | .ok (.modified manifest etag) =>
      if etag.isSome then
        let _ ← perform (Effect.saveRemoteCache { etag, manifest })
      pure (.ok manifest)

/-- Whether the server manifest differs from the cached one. A new one becomes
the cache; no cache means "changed". -/
def remoteChanged (crypto : Crypto) : Eff (Except SyncEngineError Bool) := do
  match (← perform Effect.loadRemoteCache).filter fun cache => cache.etag.isSome with
  | none => pure (.ok true)
  | some cache =>
      match ← getManifestIfChanged crypto cache.etag with
      | .error error => pure (.error (.api error))
      | .ok .notModified => pure (.ok false)
      | .ok (.modified manifest etag) =>
          if etag.isSome then
            let _ ← perform (Effect.saveRemoteCache { etag, manifest })
          pure (.ok true)

/-! ## The local side -/

/-- A file as the walker lists it. -/
def walkEntry (crypto : Crypto) (file : StoredFile) : FileEntry where
  hash := crypto.contentHmac file.content
  modified := file.modified
  size := file.content.length

/-- The files on disk, keyed by relative path with `/` separators; ignored ones
are left out. -/
def buildManifest (crypto : Crypto) (ignore : IgnoreRules) (folder : Folder) : Manifest :=
  folder.toList.foldl
    (fun manifest (name, file) =>
      let key := normalizePath name
      if ignore.isIgnored key then manifest else manifest.insert key (walkEntry crypto file))
    ∅

/-- The files on disk plus a tombstone for every live base entry that is no
longer there. -/
def buildWorkingManifest (crypto : Crypto) (ignore : IgnoreRules) (now : Nat) (folder : Folder)
    (base : Manifest) : Manifest :=
  let current := buildManifest crypto ignore folder
  base.toList.foldl
    (fun working (path, entry) =>
      if current.contains path || entry.deleted then working
      else working.insert path { entry with modified := now, deleted := true })
    current

def keep (ignore : IgnoreRules) (manifest : Manifest) : Manifest :=
  manifest.filter fun path _ => !ignore.isIgnored path

/-- The three-way diff with ignored paths removed from all three sides. -/
def diffLocalAndRemote (base working remote : Manifest) (ignore : IgnoreRules) : ManifestDiff :=
  diffManifests (keep ignore base) (keep ignore working) (keep ignore remote)

/-! ## Downloads -/

def failureOf (action : SyncAction) (kind : SyncActionKind) (error : SyncEngineError) :
    SyncFailure where
  path := action.path
  kind := kind
  error := error.text
  fatal := isFatalSyncError error

/-- Local deletes, one by one. -/
def deleteAll : List SyncAction → Eff (List SyncFailure)
  | [] => pure []
  | action :: rest => do
      let failed := match ← perform (Effect.deleteLocalFile action.path) with
        | .ok () => []
        | .error error => [{ failureOf action .deleteLocal error with fatal := false }]
      return failed ++ (← deleteAll rest)

/-- How far a download has come. -/
inductive Stage where
  | waiting
  | started
  | fetched (blob : Bytes)
  deriving DecidableEq

/-- A download in flight. -/
structure Flight where
  action : SyncAction
  stage : Stage
  deriving DecidableEq

def downloadConcurrency : Nat := 8

/-- What one step of a download comes to. -/
inductive FlightStep where
  | goOn (stage : Stage)
  | done (failure : Option SyncFailure)

/-- One step of a download; a raised `stop` keeps it from starting. -/
def fetchOne (crypto : Crypto) (stop : Bool) (flight : Flight) : Eff FlightStep :=
  let action := flight.action
  match flight.stage with
  | .waiting =>
      if action.kind ≠ .download ∨ stop = true then pure (.done none) else pure (.goOn .started)
  | .started => do
      match ← perform (Effect.getFile action.path) with
      | .ok blob => pure (.goOn (.fetched blob))
      | .error error => pure (.done (some (failureOf action .download (.api error))))
  | .fetched blob =>
      match crypto.decrypt blob with
      | .error error => pure (.done (some (failureOf action .download (.crypto error))))
      | .ok plaintext => do
          match ← perform (Effect.writeFile action.path plaintext) with
          | .ok () => pure (.done none)
          | .error error => pure (.done (some (failureOf action .download error)))

/-- The downloads, at most `downloadConcurrency` in flight, in any order. The
failures come in the order the downloads end; `fuel` bounds the number of steps. -/
def fetchLoop (crypto : Crypto) :
    (fuel : Nat) → (pending : List SyncAction) → (inFlight : List Flight) → (stop : Bool) →
    (failures : List SyncFailure) → Eff (List SyncFailure)
  | 0, _, _, _, failures => pure failures
  | fuel + 1, pending, inFlight, stop, failures =>
      let free := downloadConcurrency - inFlight.length
      let inFlight := inFlight ++ (pending.take free).map fun action => ⟨action, .waiting⟩
      let pending := pending.drop free
      if inFlight.isEmpty then pure failures
      else do
        let index := (← perform Effect.pick) % inFlight.length
        match inFlight[index]? with
        | none => pure failures
        | some flight =>
            match ← fetchOne crypto stop flight with
            | .goOn stage =>
                fetchLoop crypto fuel pending
                  (inFlight.set index { flight with stage }) stop failures
            | .done none =>
                fetchLoop crypto fuel pending (inFlight.eraseIdx index) stop failures
            | .done (some failure) =>
                fetchLoop crypto fuel pending (inFlight.eraseIdx index) (stop || failure.fatal)
                  (failures ++ [failure])

/-- Local deletes first, then the fetches: three steps each at most. -/
def applyDownloads (crypto : Crypto) (downloads : List SyncAction) : Eff (List SyncFailure) := do
  let deletes := downloads.filter fun action => action.kind = .deleteLocal
  let fetches := downloads.filter fun action => action.kind ≠ .deleteLocal
  let deleted ← deleteAll deletes
  let fetched ← fetchLoop crypto (3 * fetches.length) fetches [] false []
  return deleted ++ fetched

def prepareSync (crypto : Crypto) (ignore : IgnoreRules) :
    Eff (Except SyncEngineError SyncPlan) := do
  match ← perform Effect.loadLocalState with
  | .error error => pure (.error error)
  | .ok (base, folder, now) =>
      let working := buildWorkingManifest crypto ignore now folder base
      match ← fetchRemoteManifest crypto with
      | .error error => pure (.error error)
      | .ok remote => do
          let diff := diffLocalAndRemote base working remote ignore
          let failures ← applyDownloads crypto diff.download
          return .ok { upload := diff.upload, download := diff.download,
                       conflicts := diff.conflicts, failures }

/-! ## Resolutions -/

/-- What resolving a plan's conflicts leaves to upload, and what was deferred. -/
structure Resolved where
  uploads : List SyncAction
  deferred : List Conflict
  deriving DecidableEq

/-- The last answer given for a path. -/
def resolutionFor (resolutions : List ConflictResolution) (path : String) :
    Option ConflictResolutionChoice :=
  ((resolutions.filter fun resolution => resolution.path = path).getLast?).map
    ConflictResolution.choice

def decryptAndWrite (crypto : Crypto) (path : String) (blob : Bytes) :
    Eff (Except SyncEngineError Unit) :=
  match crypto.decrypt blob with
  | .error error => pure (.error (.crypto error))
  | .ok plaintext => perform (Effect.writeFile path plaintext)

/-- Fetch the server version of one path and write it at another. -/
def fetchTo (crypto : Crypto) (path target : String) : Eff (Except SyncEngineError Unit) := do
  match ← perform (Effect.getFile path) with
  | .error error => pure (.error (.api error))
  | .ok blob => decryptAndWrite crypto target blob

def applyKeepRemote (crypto : Crypto) (conflict : Conflict) : Eff (Except SyncEngineError Unit) :=
  if conflict.remoteEntry.deleted then perform (Effect.deleteLocalFile conflict.path)
  else fetchTo crypto conflict.path conflict.path

def writeConflictCopy (crypto : Crypto) (conflict : Conflict) :
    Eff (Except SyncEngineError String) := do
  let duplicatePath := conflictCopyPath conflict.path
  match ← fetchTo crypto conflict.path duplicatePath with
  | .error error => pure (.error error)
  | .ok () => pure (.ok duplicatePath)

def buildUploadActionForPath (crypto : Crypto) (path : String) :
    Eff (Except SyncEngineError SyncAction) := do
  match ← perform (Effect.statFile path) with
  | .error error => pure (.error error)
  | .ok file =>
      return .ok { path, kind := .upload, localEntry := some (walkEntry crypto file),
                   remoteEntry := none }

/-- One conflict of the plan. -/
def applyResolution (crypto : Crypto) (resolutions : List ConflictResolution)
    (resolved : Resolved) (conflict : Conflict) : Eff (Except SyncEngineError Resolved) :=
  match resolutionFor resolutions conflict.path with
  | none => pure (.error (.missingResolution conflict.path))
  | some choice =>
      match effectiveChoice choice conflict with
      | .defer => pure (.ok { resolved with deferred := resolved.deferred ++ [conflict] })
      | .keepLocal =>
          pure (.ok { resolved with uploads := resolved.uploads ++ [conflictToUpload conflict] })
      | .keepRemote => do
          match ← applyKeepRemote crypto conflict with
          | .error error => pure (.error error)
          | .ok () => pure (.ok resolved)
      | .keepBoth => do
          match ← writeConflictCopy crypto conflict with
          | .error error => pure (.error error)
          | .ok duplicatePath =>
              match ← buildUploadActionForPath crypto duplicatePath with
              | .error error => pure (.error error)
              | .ok copy =>
                  pure (.ok { resolved with
                    uploads := resolved.uploads ++ [conflictToUpload conflict, copy] })

def applyResolutions (crypto : Crypto) (resolutions : List ConflictResolution) :
    (conflicts : List Conflict) → (resolved : Resolved) → Eff (Except SyncEngineError Resolved)
  | [], resolved => pure (.ok resolved)
  | conflict :: rest, resolved => do
      match ← applyResolution crypto resolutions resolved conflict with
      | .error error => pure (.error error)
      | .ok resolved => applyResolutions crypto resolutions rest resolved

/-! ## Uploads -/

/-- What the upload phase has produced so far, with the paths whose checkpoint
entry must not advance. -/
structure UploadOutcome where
  succeeded : Nat
  failures : List SyncFailure
  lateConflicts : List Conflict
  holdBack : List String
  deriving DecidableEq

def UploadOutcome.fail (outcome : UploadOutcome) (action : SyncAction) (message : String)
    (fatal : Bool) : UploadOutcome :=
  { outcome with
    holdBack := outcome.holdBack ++ [action.path]
    failures := outcome.failures ++ [⟨action.path, action.kind, message, fatal⟩] }

/-- Read and encrypt one upload into its operation; `none` for kinds a batch
does not carry. -/
def prepareBatchOp (action : SyncAction) : Eff (Except SyncEngineError (Option BatchOp)) :=
  match action.kind with
  | .upload => do
      match ← perform (Effect.sealFile action.path) with
      | .error error => pure (.error error)
      | .ok content =>
          return .ok (some (.put action.path (parentHash action)
            ((action.localEntry.map FileEntry.hash).getD "") content))
  | .deleteRemote => pure (.ok (some (.delete action.path (parentHash action))))
  | .download | .deleteLocal => pure (.ok none)

/-- Prepare the members of one batch; those that cannot be read fail. -/
def prepareBatch : List SyncAction → UploadOutcome →
    Eff (List (SyncAction × BatchOp) × UploadOutcome)
  | [], outcome => pure ([], outcome)
  | action :: rest, outcome => do
      match ← prepareBatchOp action with
      | .ok (some op) =>
          let (members, outcome) ← prepareBatch rest outcome
          return ((action, op) :: members, outcome)
      | .ok none => prepareBatch rest { outcome with succeeded := outcome.succeeded + 1 }
      | .error error => prepareBatch rest (outcome.fail action error.text false)

/-- The server's side of a batch: the operations in order, each in its own
transaction; an internal error ends the request. -/
def applyOperations : List BatchOp → Eff (Except Server.ApiError (List BatchOperationResult))
  | [] => pure (.ok [])
  | op :: rest => do
      match ← perform (Effect.applyOp op) with
      | .error (.internal message) => pure (.error (.internal message))
      | answer =>
          let result : BatchOperationResult := match answer with
            | .error (.conflict path current) => ⟨op.path, 409, some ⟨path, current⟩⟩
            | .error error => ⟨op.path, error.statusCode, none⟩
            | .ok _ => ⟨op.path, 200, none⟩
          match ← applyOperations rest with
          | .error error => pure (.error error)
          | .ok results => pure (.ok (result :: results))

def maxAttempts : Nat := 3

/-- Worth another attempt: the request or its answer got lost on the way. -/
def isTransient : ApiError → Bool
  | .http .timeout _ | .http .connect _ => true
  | _ => false

/-- One attempt at a batch. `inl` is an error before an answer arrived. -/
def sendBatchOnce (ops : List BatchOp) :
    Eff (ApiError ⊕ Except ApiError (List BatchOperationResult)) := do
  match ← perform Effect.sendBatch with
  | .error error => pure (.inl error)
  | .ok () =>
      let answer ← applyOperations ops
      match ← perform Effect.receiveBatch with
      | .error error => pure (.inl error)
      | .ok () =>
          match answer with
          | .error error => pure (.inr (.error (ofServer error)))
          | .ok results =>
              match ← perform Effect.readBatch with
              | .error error => pure (.inr (.error error))
              | .ok () =>
                  if results.length ≠ ops.length then
                    pure (.inr (.error (.unexpectedStatus 502
                      ("batch answered " ++ Text.numeral results.length ++ " results for " ++
                        Text.numeral ops.length ++ " operations"))))
                  else pure (.inr (.ok results))

/-- Send a batch, again while attempts are left and the failure is transient. -/
def batch (ops : List BatchOp) :
    (attempts : Nat) → Eff (Except ApiError (List BatchOperationResult))
  | 0 => pure (.error (.http .request "no attempt left"))
  | attempts + 1 => do
      match ← sendBatchOnce ops with
      | .inr answer => pure answer
      | .inl error =>
          if attempts = 0 ∨ isTransient error = false then pure (.error error)
          else batch ops attempts

/-- One result of a batch; whether it stops the rest. -/
def accountResult (outcome : UploadOutcome) (action : SyncAction) (result : BatchOperationResult) :
    UploadOutcome × Bool :=
  if 200 ≤ result.status ∧ result.status ≤ 299 then
    ({ outcome with succeeded := outcome.succeeded + 1 }, false)
  else if result.status = 409 then
    let remote := (result.conflict.bind ServerConflict.current).getD { deleted := true }
    ({ outcome with
        holdBack := outcome.holdBack ++ [action.path]
        lateConflicts := outcome.lateConflicts ++
          [⟨action.path, action.localEntry.getD {}, remote⟩] }, false)
  else
    let fatal := isFatalStatus result.status
    (outcome.fail action
      ("api error: batch operation answered " ++ Text.numeral result.status) fatal, fatal)

def accountResults : List (SyncAction × BatchOperationResult) → UploadOutcome → UploadOutcome × Bool
  | [], outcome => (outcome, false)
  | (action, result) :: rest, outcome =>
      let (outcome, stop) := accountResult outcome action result
      let (outcome, stopRest) := accountResults rest outcome
      (outcome, stop || stopRest)

/-- One batch; whether it stops the remaining ones. -/
def runBatch (actions : List SyncAction) (outcome : UploadOutcome) :
    Eff (UploadOutcome × Bool) := do
  let (members, outcome) ← prepareBatch actions outcome
  if members.isEmpty then pure (outcome, false)
  else
    match ← batch (members.map Prod.snd) maxAttempts with
    | .error error =>
        let fatal := isFatalApiError error
        let message := error.text
        pure (members.foldl (fun outcome member => outcome.fail member.1 message fatal) outcome,
          fatal)
    | .ok results => pure (accountResults ((members.map Prod.fst).zip results) outcome)

def runBatches : List (List SyncAction) → UploadOutcome → Eff UploadOutcome
  | [], outcome => pure outcome
  | actions :: rest, outcome => do
      let (outcome, stop) ← runBatch actions outcome
      if stop then pure outcome else runBatches rest outcome

/-- The uploads cut into batches. -/
def batches (uploads : List SyncAction) : List (List SyncAction) :=
  (chunkUploads (uploads.map fun action => (action.localEntry.map FileEntry.size).getD 0)).map
    (slice uploads)

def runUploads (uploads : List SyncAction) (holdBack : List String) : Eff UploadOutcome :=
  runBatches (batches uploads) ⟨0, [], [], holdBack⟩

/-! ## The checkpoint -/

def checkpoint (crypto : Crypto) (holdBack : List String) : Eff (Except SyncEngineError Unit) := do
  match ← fetchRemoteManifest crypto with
  | .error error => pure (.error error)
  | .ok remote =>
      match ← perform Effect.loadBase with
      | .error error => pure (.error error)
      | .ok previousBase =>
          perform (Effect.saveBase (checkpointManifest previousBase remote holdBack))

/-- Resolve, upload and checkpoint. A checkpoint is skipped when a fatal
failure already showed that the server is out of reach. -/
def completeSync (crypto : Crypto) (plan : SyncPlan) (resolutions : List ConflictResolution) :
    Eff (Except SyncEngineError SyncResult) := do
  match ← applyResolutions crypto resolutions plan.conflicts ⟨plan.upload, []⟩ with
  | .error error => pure (.error error)
  | .ok resolved => do
      let holdBack := plan.failures.map SyncFailure.path ++ resolved.deferred.map Conflict.path
      let uploads ← runUploads resolved.uploads holdBack
      let failures := plan.failures ++ uploads.failures
      let checkpointError ←
        if failures.any SyncFailure.fatal then pure none
        else do
          match ← checkpoint crypto uploads.holdBack with
          | .ok () => pure none
          | .error error => pure (some error.text)
      return .ok { upload := resolved.uploads, download := plan.download,
                   conflicts := resolved.deferred ++ uploads.lateConflicts
                   failures, checkpointError }

/-- One whole cycle: prepare, ask the user about the conflicts, complete. -/
def cycle (crypto : Crypto) (ignore : IgnoreRules) :
    Eff (Except SyncEngineError (SyncPlan × SyncResult)) := do
  match ← prepareSync crypto ignore with
  | .error error => pure (.error error)
  | .ok plan =>
      let resolutions ← perform (Effect.ask plan.conflicts)
      match ← completeSync crypto plan resolutions with
      | .error error => pure (.error error)
      | .ok result => return .ok (plan, result)

end ObSink.Engine
