import ObSink.Web.Scan

/-! # The cycle of the browser

`prepareSync` and `completeSync` of `web/src/worker/sync.ts`, with what they use
of `manifest.ts`, `session.ts`, `api.ts` and `errors.ts`, as programs over the
operations of the native engine. What the worker asks core-wasm for is the native
definition, and so is the server's side of a batch. The remote cache is read and
written where the native client does it; progress reports, the report of the
checkpoint and the hash memo are left out, as they are in the native cycle.
-/

namespace ObSink.Web

open Engine
open Prog (perform)

/-! ## Errors -/

/-- What an exception is, as far as the cycle looks at it; `thrown` is one that
is no `CommandError`. -/
inductive ErrorKind where
  | unauthorized
  | network
  | server
  | other
  | thrown
  deriving DecidableEq, Repr

structure CommandError where
  kind : ErrorKind
  message : String
  status : Option Nat
  deriving DecidableEq, Repr

def other (message : String) : CommandError := ⟨.other, message, none⟩

def wrongPassphrase : CommandError := other "Passphrase does not match this account."

def network (message : String) : CommandError := ⟨.network, message, none⟩

def thrown (message : String) : CommandError := ⟨.thrown, message, none⟩

def fromStatus (status : Nat) (message : String) : CommandError :=
  if status = 401 then ⟨.unauthorized, "Session expired. Sign in again.", some status⟩
  else ⟨.server, message, some status⟩

def isFatalStatus (status : Nat) : Bool :=
  status = 401 || status = 403 || 500 ≤ status

/-- An error after which the rest of the cycle cannot succeed. -/
def isFatalError (error : CommandError) : Bool :=
  error.kind = .unauthorized || error.kind = .network ||
    (error.status.map isFatalStatus).getD false

/-! ## What a cycle works with -/

structure Cycle where
  keys : Crypto
  ignore : IgnoreRules
  /-- The folder as it is when the cycle scans it. -/
  root : Tree
  /-- The text of the `error` field of a body, if that is JSON with such a field. -/
  errorField : String → Option String

def Cycle.errorMessage (cycle : Cycle) (body : String) (status : Nat) : String :=
  match cycle.errorField body with
  | some text => text
  | none => if body = "" then "server returned " ++ Text.numeral status else body

/-- The exception a failed request comes to. Without an answer it is a network
error; a body that cannot be read throws. -/
def Cycle.exception (cycle : Cycle) : ApiError → CommandError
  | .http .timeout message | .http .connect message | .http .request message => network message
  | .http .other message => thrown message
  | .unauthorized => fromStatus 401 ""
  | .unexpectedStatus status body => fromStatus status (cycle.errorMessage body status)
  | .crypto error => thrown error.text
  | .conflict path _ => thrown path

/-- Call the server with the stored bearer. A 401 forgets it, and without one
nothing is sent. -/
def bearerCall {α : Type} (signedIn : Bool) (action : Eff (Except CommandError α)) :
    Eff (Except CommandError α × Bool) := do
  if signedIn then
    match ← action with
    | .ok value => pure (.ok value, true)
    | .error error => pure (.error error, error.kind ≠ .unauthorized)
  else pure (.error (fromStatus 401 "not signed in"), false)

def getFile (cycle : Cycle) (path : String) : Eff (Except CommandError Bytes) := do
  match ← perform (Effect.getFile path) with
  | .ok blob => pure (.ok blob)
  | .error error => pure (.error (cycle.exception error))

def failureOf (action : SyncAction) (error : CommandError) : SyncFailure where
  path := action.path
  kind := action.kind
  error := error.message
  fatal := isFatalError error

/-! ## The manifests -/

/-- The properties every object has. A look-up under such a name finds one. -/
def inherited : List String :=
  ["__proto__", "__defineGetter__", "__defineSetter__", "__lookupGetter__", "__lookupSetter__",
    "constructor", "hasOwnProperty", "isPrototypeOf", "propertyIsEnumerable", "toLocaleString",
    "toString", "valueOf"]

/-- A manifest as the properties of an object. Assigning to `__proto__` adds none. -/
def own (manifest : Manifest) : Manifest := manifest.erase "__proto__"

/-- The files and tombstones. The hash memo of a file with an inherited name is
no memo, and reading its time throws; a base entry with such a name counts as
present and gets no tombstone. -/
def loadLocalState (cycle : Cycle) (base : Manifest) (now : Nat) : Except CommandError Manifest :=
  let files := cycle.root.scan cycle.ignore ""
  if files.any fun file => file.1 ∈ inherited then
    .error (thrown "Cannot read properties of undefined (reading 'mtime_secs')")
  else
    .ok (inherited.foldl Std.ExtTreeMap.erase (buildWorkingManifest cycle.keys now files base))

def withoutIgnored (ignore : IgnoreRules) (manifest : Manifest) : Manifest :=
  own (keep ignore manifest)

def getManifest (cycle : Cycle) (ifNoneMatch : Option String) :
    Eff (Except CommandError Server.ManifestAnswer) := do
  match ← perform (Effect.getManifest ifNoneMatch) with
  | .ok answer => pure (.ok answer)
  | .error error => pure (.error (cycle.exception error))

/-- The server manifest through the cache: the cached copy on 304, a refreshed
cache on 200. -/
def fetchRemoteManifest (cycle : Cycle) (signedIn : Bool) :
    Eff (Except CommandError Manifest × Bool) := do
  let cached ← perform Effect.loadRemoteCache
  match ← bearerCall signedIn (getManifest cycle (cached.bind RemoteManifestCache.etag)) with
  | (.error error, signedIn) => pure (.error error, signedIn)
  | (.ok .notModified, signedIn) =>
      match cached with
      | some cache => pure (.ok cache.manifest, signedIn)
      | none => pure (.error (thrown "server answered 304 without a cached manifest"), signedIn)
  | (.ok (.rows rows etag), signedIn) =>
      match decodeManifest cycle.keys rows with
      | .error _ => pure (.error wrongPassphrase, signedIn)
      | .ok manifest => do
          let manifest := own manifest
          let _ ← perform (Effect.saveRemoteCache { etag := some etag, manifest })
          pure (.ok manifest, signedIn)

/-! ## Downloads -/

/-- Local deletes, one at a time. -/
def removeAll : (stop : Bool) → List SyncAction → Eff (List SyncFailure × Bool)
  | stop, [] => pure ([], stop)
  | true, _ :: rest => removeAll true rest
  | false, action :: rest => do
      match ← perform (Effect.deleteLocalFile action.path) with
      | .ok () => removeAll false rest
      | .error error =>
          let failure := failureOf action (thrown error.text)
          let (failures, stop) ← removeAll failure.fatal rest
          return (failure :: failures, stop)

/-- One step of a download that a worker of the pool has taken. -/
def runOne (cycle : Cycle) (stop signedIn : Bool) (flight : Flight) : Eff (FlightStep × Bool) :=
  let action := flight.action
  match flight.stage with
  | .waiting => if stop then pure (.done none, signedIn) else pure (.goOn .started, signedIn)
  | .started => do
      match ← bearerCall signedIn (getFile cycle action.path) with
      | (.ok blob, signedIn) => pure (.goOn (.fetched blob), signedIn)
      | (.error error, signedIn) => pure (.done (some (failureOf action error)), signedIn)
  | .fetched blob =>
      match cycle.keys.decrypt blob with
      | .error error => pure (.done (some (failureOf action (thrown error.text))), signedIn)
      | .ok plaintext => do
          match ← perform (Effect.writeFile action.path plaintext) with
          | .ok () => pure (.done none, signedIn)
          | .error error => pure (.done (some (failureOf action (thrown error.text))), signedIn)

def downloadConcurrency : Nat := 8

/-- The workers of the pool, in any order. A download waits from when a worker
takes it to when it begins; `stop` keeps it from beginning. -/
def runPool (cycle : Cycle) :
    (fuel : Nat) → (remaining : List SyncAction) → (inFlight : List Flight) →
    (stop signedIn : Bool) → (failures : List SyncFailure) → Eff (List SyncFailure × Bool)
  | 0, _, _, _, signedIn, failures => pure (failures, signedIn)
  | fuel + 1, remaining, inFlight, stop, signedIn, failures =>
      let free := downloadConcurrency - inFlight.length
      let inFlight := inFlight ++ (remaining.take free).map fun action => ⟨action, .waiting⟩
      let remaining := remaining.drop free
      if inFlight.isEmpty then pure (failures, signedIn)
      else do
        let index := (← perform Effect.pick) % inFlight.length
        match inFlight[index]? with
        | none => pure (failures, signedIn)
        | some flight =>
            match ← runOne cycle stop signedIn flight with
            | (.goOn stage, signedIn) =>
                runPool cycle fuel remaining (inFlight.set index { flight with stage }) stop
                  signedIn failures
            | (.done none, signedIn) =>
                runPool cycle fuel remaining (inFlight.eraseIdx index) stop signedIn failures
            | (.done (some failure), signedIn) =>
                runPool cycle fuel remaining (inFlight.eraseIdx index) (stop || failure.fatal)
                  signedIn (failures ++ [failure])

/-- Deletes first, then the downloads through the pool. -/
def applyDownloads (cycle : Cycle) (signedIn : Bool) (downloads : List SyncAction) :
    Eff (List SyncFailure × Bool) := do
  let deletes := downloads.filter fun action => action.kind = .deleteLocal
  let remaining := downloads.filter fun action => action.kind ≠ .deleteLocal
  let (removed, stop) ← removeAll false deletes
  let (failures, signedIn) ← runPool cycle (3 * remaining.length) remaining [] stop signedIn []
  return (removed ++ failures, signedIn)

/-- What a prepared cycle leaves for its completion: the plan, the base, and
whether the session still has its bearer. -/
structure Prepared where
  plan : SyncPlan
  base : Manifest
  signedIn : Bool

def prepareSync (cycle : Cycle) : Eff (Except CommandError Prepared) := do
  match ← perform Effect.loadLocalState with
  | .error error => pure (.error (thrown error.text))
  | .ok (base, _, now) =>
      match loadLocalState cycle base now with
      | .error error => pure (.error error)
      | .ok working => do
          match ← fetchRemoteManifest cycle true with
          | (.error error, _) => pure (.error error)
          | (.ok remote, signedIn) =>
              let diff := diffManifests (withoutIgnored cycle.ignore base)
                (withoutIgnored cycle.ignore working) (withoutIgnored cycle.ignore remote)
              let (failures, signedIn) ← applyDownloads cycle signedIn diff.download
              return .ok
                { plan := { upload := diff.upload, download := diff.download,
                            conflicts := diff.conflicts, failures }
                  base, signedIn }

/-! ## Resolutions -/

structure Resolved where
  uploads : List SyncAction
  deferred : List Conflict
  failures : List SyncFailure
  signedIn : Bool

/-- Fetch the server version of one path and write it at another. -/
def downloadTo (cycle : Cycle) (signedIn : Bool) (path target : String) :
    Eff (Except CommandError Unit × Bool) := do
  match ← bearerCall signedIn (getFile cycle path) with
  | (.error error, signedIn) => pure (.error error, signedIn)
  | (.ok blob, signedIn) =>
      match cycle.keys.decrypt blob with
      | .error error => pure (.error (thrown error.text), signedIn)
      | .ok plaintext => do
          match ← perform (Effect.writeFile target plaintext) with
          | .ok () => pure (.ok (), signedIn)
          | .error error => pure (.error (thrown error.text), signedIn)

def removeFile (path : String) : Eff (Except CommandError Unit) := do
  match ← perform (Effect.deleteLocalFile path) with
  | .ok () => pure (.ok ())
  | .error error => pure (.error (thrown error.text))

def uploadActionFor (cycle : Cycle) (path : String) : Eff (Except CommandError SyncAction) := do
  match ← perform (Effect.statFile path) with
  | .error error => pure (.error (thrown error.text))
  | .ok file =>
      return .ok { path, kind := .upload, localEntry := some (walkEntry cycle.keys file),
                   remoteEntry := none }

/-- An exception while a conflict is resolved is a failure of its path. -/
def Resolved.fail (resolved : Resolved) (conflict : Conflict) (error : CommandError) : Resolved :=
  { resolved with
    failures :=
      resolved.failures ++ [⟨conflict.path, .download, error.message, isFatalError error⟩] }

def applyResolution (cycle : Cycle) (resolutions : List ConflictResolution) (resolved : Resolved)
    (conflict : Conflict) : Eff (Except CommandError Resolved) :=
  match resolutions.find? fun resolution => resolution.path = conflict.path with
  | none => pure (.error (other ("missing resolution for conflict at " ++ conflict.path)))
  | some answer =>
      match effectiveChoice answer.choice conflict with
      | .defer => pure (.ok { resolved with deferred := resolved.deferred ++ [conflict] })
      | .keepLocal =>
          pure (.ok { resolved with uploads := resolved.uploads ++ [conflictToUpload conflict] })
      | .keepRemote =>
          if conflict.remoteEntry.deleted then do
            match ← removeFile conflict.path with
            | .ok () => pure (.ok resolved)
            | .error error => pure (.ok (resolved.fail conflict error))
          else do
            match ← downloadTo cycle resolved.signedIn conflict.path conflict.path with
            | (.ok (), signedIn) => pure (.ok { resolved with signedIn })
            | (.error error, signedIn) =>
                pure (.ok ({ resolved with signedIn }.fail conflict error))
      | .keepBoth => do
          let copy := conflictCopyPath conflict.path
          match ← downloadTo cycle resolved.signedIn conflict.path copy with
          | (.error error, signedIn) => pure (.ok ({ resolved with signedIn }.fail conflict error))
          | (.ok (), signedIn) =>
              -- the conflict's own upload stays queued if the copy cannot be read
              let resolved : Resolved :=
                { resolved with
                  signedIn, uploads := resolved.uploads ++ [conflictToUpload conflict] }
              match ← uploadActionFor cycle copy with
              | .error error => pure (.ok (resolved.fail conflict error))
              | .ok action => pure (.ok { resolved with uploads := resolved.uploads ++ [action] })

def applyResolutions (cycle : Cycle) (resolutions : List ConflictResolution) :
    (conflicts : List Conflict) → (resolved : Resolved) → Eff (Except CommandError Resolved)
  | [], resolved => pure (.ok resolved)
  | conflict :: rest, resolved => do
      match ← applyResolution cycle resolutions resolved conflict with
      | .error error => pure (.error error)
      | .ok resolved => applyResolutions cycle resolutions rest resolved

/-! ## Uploads -/

/-- The entry of a conflict answer. Without one it is a tombstone with the hash
of the fallback. -/
def wireEntry (entry fallback : Option FileEntry) : FileEntry :=
  match entry with
  | some entry => entry
  | none => { hash := (fallback.map FileEntry.hash).getD "", deleted := true }

structure Uploaded where
  done : List SyncAction
  late : List Conflict
  failures : List SyncFailure

/-- The hash of a content that was read and sealed. -/
def sealedHash (cycle : Cycle) (content : Bytes) : String :=
  match cycle.keys.decrypt content with
  | .ok plaintext => cycle.keys.contentHmac plaintext
  | .error _ => ""

/-- The operations of a batch; members that cannot be read fail. -/
def prepareBatch (cycle : Cycle) : List SyncAction → Uploaded →
    Eff (List (SyncAction × BatchOp) × Uploaded)
  | [], uploaded => pure ([], uploaded)
  | action :: rest, uploaded =>
      match action.kind with
      | .upload => do
          match ← perform (Effect.sealFile action.path) with
          | .error error =>
              prepareBatch cycle rest
                { uploaded with
                  failures := uploaded.failures ++ [⟨action.path, action.kind, error.text, false⟩] }
          | .ok content =>
              let (members, uploaded) ← prepareBatch cycle rest uploaded
              return ((action, .put action.path (parentHash action)
                ((action.localEntry.map FileEntry.hash).getD (sealedHash cycle content)) content) ::
                members, uploaded)
      | .deleteRemote => do
          let (members, uploaded) ← prepareBatch cycle rest uploaded
          return ((action, .delete action.path (parentHash action)) :: members, uploaded)
      | .download | .deleteLocal =>
          prepareBatch cycle rest { uploaded with done := uploaded.done ++ [action] }

/-- One batch request. It is not repeated: the server may have applied it. -/
def batch (cycle : Cycle) (ops : List BatchOp) :
    Eff (Except CommandError (List BatchOperationResult)) := do
  match ← perform Effect.sendBatch with
  | .error error => pure (.error (cycle.exception error))
  | .ok () =>
      let answer ← applyOperations ops
      match ← perform Effect.receiveBatch with
      | .error error => pure (.error (cycle.exception error))
      | .ok () =>
          match answer with
          | .error error => pure (.error (cycle.exception (ofServer error)))
          | .ok results =>
              match ← perform Effect.readBatch with
              | .error error => pure (.error (thrown error.text))
              | .ok () =>
                  if results.length ≠ ops.length then
                    pure (.error (fromStatus 502
                      ("batch answered " ++ Text.numeral results.length ++ " results for " ++
                        Text.numeral ops.length ++ " operations")))
                  else pure (.ok results)

/-- One result of a batch; whether it stops the rest. -/
def accountResult (uploaded : Uploaded) (action : SyncAction) (result : BatchOperationResult) :
    Uploaded × Bool :=
  if 200 ≤ result.status ∧ result.status < 300 then
    ({ uploaded with done := uploaded.done ++ [action] }, false)
  else if result.status = 409 then
    let remote := wireEntry (result.conflict.bind ServerConflict.current) action.remoteEntry
    ({ uploaded with
        late :=
          uploaded.late ++ [⟨action.path, action.localEntry.getD (wireEntry none none), remote⟩] },
      false)
  else
    let fatal := isFatalStatus result.status
    ({ uploaded with
        failures := uploaded.failures ++
          [⟨action.path, action.kind, "server returned " ++ Text.numeral result.status, fatal⟩] },
      fatal)

def accountResults : List (SyncAction × BatchOperationResult) → Uploaded → Uploaded × Bool
  | [], uploaded => (uploaded, false)
  | (action, result) :: rest, uploaded =>
      let (uploaded, stop) := accountResult uploaded action result
      let (uploaded, stopRest) := accountResults rest uploaded
      (uploaded, stop || stopRest)

/-- One batch; whether it stops the remaining ones, and whether the session
still has its bearer. -/
def runBatch (cycle : Cycle) (actions : List SyncAction) (uploaded : Uploaded) (signedIn : Bool) :
    Eff (Uploaded × Bool × Bool) := do
  let (members, uploaded) ← prepareBatch cycle actions uploaded
  if members.isEmpty then pure (uploaded, false, signedIn)
  else
    match ← bearerCall signedIn (batch cycle (members.map Prod.snd)) with
    | (.error error, signedIn) =>
        let failures := members.map fun member => failureOf member.1 error
        pure ({ uploaded with failures := uploaded.failures ++ failures },
          isFatalError error, signedIn)
    | (.ok results, signedIn) =>
        let (uploaded, stop) := accountResults ((members.map Prod.fst).zip results) uploaded
        pure (uploaded, stop, signedIn)

def runBatches (cycle : Cycle) : List (List SyncAction) → Uploaded → (signedIn : Bool) →
    Eff (Uploaded × Bool)
  | [], uploaded, signedIn => pure (uploaded, signedIn)
  | actions :: rest, uploaded, signedIn => do
      let (uploaded, stop, signedIn) ← runBatch cycle actions uploaded signedIn
      if stop then pure (uploaded, signedIn) else runBatches cycle rest uploaded signedIn

/-- The uploads cut into batches; only those that carry content count. -/
def batches (uploads : List SyncAction) : List (List SyncAction) :=
  (chunkUploads (uploads.map fun action =>
    if action.kind = .upload then (action.localEntry.map FileEntry.size).getD 0 else 0)).map
    (slice uploads)

def runUploads (cycle : Cycle) (uploads : List SyncAction) (signedIn : Bool) :
    Eff (Uploaded × Bool) :=
  runBatches cycle (batches uploads) ⟨[], [], []⟩ signedIn

/-! ## The checkpoint -/

def checkpoint (cycle : Cycle) (signedIn : Bool) (base : Manifest) (holdBack : List String) :
    Eff (Except CommandError Unit) := do
  match ← fetchRemoteManifest cycle signedIn with
  | (.error error, _) => pure (.error error)
  | (.ok refetched, _) =>
      match ← perform (Effect.saveBase (checkpointManifest base refetched holdBack)) with
      | .ok () => pure (.ok ())
      | .error error => pure (.error (thrown error.text))

/-- The uploads and the checkpoint of a cycle whose conflicts are resolved. -/
def uploadAndCheckpoint (cycle : Cycle) (prepared : Prepared) (resolved : Resolved) :
    Eff SyncResult := do
  let plan := prepared.plan
  let (uploaded, signedIn) ← runUploads cycle resolved.uploads resolved.signedIn
  let failures := plan.failures ++ resolved.failures ++ uploaded.failures
  let holdBack := failures.map SyncFailure.path ++ resolved.deferred.map Conflict.path ++
    uploaded.late.map Conflict.path
  let checkpointError ←
    if failures.any SyncFailure.fatal then pure none
    else do
      match ← checkpoint cycle signedIn prepared.base holdBack with
      | .ok () => pure none
      | .error error => pure (some error.message)
  return { upload := uploaded.done, download := plan.download,
           conflicts := resolved.deferred ++ uploaded.late, failures, checkpointError }

def completeSync (cycle : Cycle) (prepared : Prepared) (resolutions : List ConflictResolution) :
    Eff (Except CommandError SyncResult) := do
  let plan := prepared.plan
  match ← applyResolutions cycle resolutions plan.conflicts
      ⟨plan.upload, [], [], prepared.signedIn⟩ with
  | .error error => pure (.error error)
  | .ok resolved => return .ok (← uploadAndCheckpoint cycle prepared resolved)

/-- One whole cycle: prepare, ask the user about the conflicts, complete. -/
def Cycle.run (cycle : Cycle) : Eff (Except CommandError (SyncPlan × SyncResult)) := do
  match ← prepareSync cycle with
  | .error error => pure (.error error)
  | .ok prepared =>
      let resolutions ← perform (Effect.ask prepared.plan.conflicts)
      match ← completeSync cycle prepared resolutions with
      | .error error => pure (.error error)
      | .ok result => return .ok (prepared.plan, result)

end ObSink.Web
