import ObSink.Core.Pacing
import ObSink.Engine.Plan
import ObSink.Web.Vaults

/-! # The driver of a vault in the browser

`web/src/worker/driver.ts` for one vault, over the cycle of
`web/src/worker/sync.ts`. The works of a driver run one after the other; a step
here takes one of them to where `running` changes, or to its end. What a work
awaits is an input: what the folder and the server hold, what throws, and how
the transfers went. Progress, the activity log and the checkpoint report are
left out.
-/

namespace ObSink.Web.Polls

open Engine (HashCache RemoteManifestCache addTombstones diffLocalAndRemote)

def pollActiveMs : Nat := 5000

def pollIdleMs : Nat := 60000

def activeWindowMs : Nat := 60000

def backoffBaseMs : Nat := 5000

def backoffMaxMs : Nat := 5 * 60000

/-! ## What a work awaits -/

/-- The manifest of a vault as the server would send it. An object has no room
for a path `__proto__`, and the server has none. -/
structure ServerState where
  etag : Option String
  manifest : Manifest
  plain : "__proto__" ∉ manifest

def ServerState.getManifest (server : ServerState) (ifNoneMatch : Option String) : Fetched :=
  if ifNoneMatch.isSome ∧ ifNoneMatch = server.etag then .notModified
  else .modified server.manifest server.etag

/-- What a work finds: `current` is the folder as a scan lists it, with hashes
from the hash cache or of the content. -/
structure View where
  current : Manifest
  hashes : Option HashCache
  server : ServerState

/-- What may throw. -/
inductive Await where
  | cycleFor
  | loadSyncState
  | remoteChanged
  | loadLocalState
  | fetchRemoteManifest
  | saveSyncState
  /-- Resolutions and uploads of `completeSync`. -/
  | transfers
  | refetch
  | saveCheckpoint
  | recordSync
  deriving DecidableEq, Repr

/-- How the transfers of a cycle went. `failures` are those of resolutions and
uploads, `error` what a checkpoint throws. -/
structure Transfers where
  downloadFailures : List SyncFailure := []
  done : List SyncAction := []
  late : List Conflict := []
  failures : List SyncFailure := []
  refetched : ServerState
  error : String := ""

/-! ## The driver -/

/-- The plan a cycle stopped on. -/
structure Pending where
  plan : SyncPlan
  state : VaultSyncState
  deriving DecidableEq

inductive Job where
  | poll
  | sync
  | resolve (resolutions : List ConflictResolution)
  deriving DecidableEq, Repr

inductive Work where
  /-- A poll looks for changes; `running` is not set yet. -/
  | checking
  /-- The cycle of a poll. -/
  | cycling
  | syncing
  | resolving (pending : Pending) (resolutions : List ConflictResolution)
  deriving DecidableEq

/-- The driver, with what it shares with the worker: the stored record, the
clock, and whether the worker is paused and has the keys of the vault. `timer`
is when the timer is due. -/
structure Driver where
  state : Option VaultSyncState := none
  clock : Nat := 0
  paused : Bool := false
  keys : Bool := false
  running : Bool := false
  pending : Option Pending := none
  lastActivity : Nat := 0
  failures : Nat := 0
  suppressedUntil : Nat := 0
  timer : Option Nat := none
  queue : List Job := []
  work : Option Work := none
  deriving DecidableEq

namespace Driver

/-- A new driver of a vault whose record is stored. -/
def fresh (stored : Option VaultSyncState) : Driver := { state := stored }

def loadSyncState (d : Driver) : VaultSyncState := d.state.getD {}

def saveSyncState (d : Driver) (state : VaultSyncState) : Driver := { d with state := some state }

def nowSeconds (d : Driver) : Nat := d.clock / 1000

def noteFailure (d : Driver) : Driver :=
  { d with
    suppressedUntil := d.clock + backoffWait backoffBaseMs backoffMaxMs d.failures
    failures := d.failures + 1 }

/-- `schedule` with a delay. -/
def scheduleIn (d : Driver) (delay : Nat) : Driver := { d with timer := some (d.clock + delay) }

def schedule (d : Driver) : Driver :=
  d.scheduleIn (if d.clock - d.lastActivity < activeWindowMs then pollActiveMs else pollIdleMs)

def setPaused (d : Driver) (value : Bool) : Driver :=
  if d.paused = value then d
  else
    let d := { d with paused := value }
    if value then d else d.scheduleIn 0

def startDriver (d : Driver) : Driver := Driver.schedule { d with lastActivity := d.clock }

def enqueue (d : Driver) (job : Job) : Driver := { d with queue := d.queue ++ [job] }

/-- A work is done; `guarded` clears `running`. -/
def leave (d : Driver) : Driver := { d with running := false, work := none }

/-! ## The cycle -/

/-- The server manifest through the cache of a record. -/
def fetchRemoteManifest (state : VaultSyncState) (server : ServerState) :
    Option (Manifest × VaultSyncState) :=
  state.fetchRemoteManifest (server.getManifest (state.remoteCache.bind RemoteManifestCache.etag))

/-- `true` when the server manifest moved since the cache was written. -/
def remoteChanged (state : VaultSyncState) (server : ServerState) : Bool × VaultSyncState :=
  match state.remoteCache with
  | none => (true, state)
  | some cache =>
      match server.getManifest cache.etag with
      | .notModified => (false, state)
      | .modified manifest etag =>
          (true, { state with remoteCache := etag.map fun etag => ⟨some etag, manifest⟩ })

/-- The diff against the base of a record. -/
def diff (d : Driver) (ignore : IgnoreRules) (view : View) (state : VaultSyncState)
    (remote : Manifest) : ManifestDiff :=
  diffLocalAndRemote state.base (addTombstones d.nowSeconds view.current state.base) remote ignore

/-- `loadLocalState` and `fetchRemoteManifest`, with which `detectChanges` and
`prepareSync` begin. -/
def loadBoth (d : Driver) (view : View) (fails : List Await) :
    Option (Manifest × VaultSyncState) :=
  if .loadLocalState ∈ fails ∨ .fetchRemoteManifest ∈ fails then none
  else fetchRemoteManifest { d.loadSyncState with hashCache := view.hashes } view.server

def detectChanges (d : Driver) (ignore : IgnoreRules) (view : View) (fails : List Await) :
    Driver × Option Bool :=
  match d.loadBoth view fails with
  | none => (d, none)
  | some (remote, state) =>
      if .saveSyncState ∈ fails then (d, none)
      else
        let diff := d.diff ignore view state remote
        (d.saveSyncState state,
          some (0 < diff.upload.length || 0 < diff.download.length || 0 < diff.conflicts.length))

def prepareSync (d : Driver) (ignore : IgnoreRules) (view : View) (fails : List Await)
    (transfers : Transfers) : Driver × Option Pending :=
  match d.loadBoth view fails with
  | none => (d, none)
  | some (remote, state) =>
      if .saveSyncState ∈ fails then (d, none)
      else
        let diff := d.diff ignore view state remote
        (d.saveSyncState state,
          some ⟨⟨diff.upload, diff.download, diff.conflicts, transfers.downloadFailures⟩, state⟩)

/-- Every conflict of a plan without an explicit choice is deferred. -/
def deferTheRest (plan : SyncPlan) (resolutions : List ConflictResolution) :
    List ConflictResolution :=
  let missing := plan.conflicts.filter fun conflict =>
    !resolutions.any fun resolution => resolution.path = conflict.path
  resolutions ++ missing.map fun conflict => ⟨conflict.path, .defer⟩

/-- The conflicts whose answer is to defer; a conflict without an answer throws. -/
def deferredOf (plan : SyncPlan) (resolutions : List ConflictResolution) : Option (List Conflict) :=
  (plan.conflicts.mapM fun conflict =>
    (resolutions.find? fun resolution => resolution.path = conflict.path).map fun answer =>
      (conflict, effectiveChoice answer.choice conflict)).map fun answers =>
    (answers.filter fun answer => answer.2 = .defer).map Prod.fst

/-- The checkpoint of `completeSync`, and what it throws. An empty message counts
as none. -/
def checkpoint (d : Driver) (fails : List Await) (transfers : Transfers) (holdBack : List String)
    (state : VaultSyncState) : Driver × VaultSyncState × Option String :=
  let thrown := if transfers.error = "" then none else some transfers.error
  if .refetch ∈ fails then (d, state, thrown)
  else
    match fetchRemoteManifest state transfers.refetched with
    | none => (d, state, some "server answered 304 without a cached manifest")
    | some (refetched, state) =>
        let state := { state with base := checkpointManifest state.base refetched holdBack }
        if .saveCheckpoint ∈ fails then (d, state, thrown)
        else (d.saveSyncState state, state, none)

def completeSync (d : Driver) (fails : List Await) (transfers : Transfers) (plan : SyncPlan)
    (resolutions : List ConflictResolution) (state : VaultSyncState) :
    Driver × Option (SyncResult × VaultSyncState) :=
  match deferredOf plan resolutions with
  | none => (d, none)
  | some deferred =>
      if .transfers ∈ fails then (d, none)
      else
        let failures := plan.failures ++ transfers.failures
        let holdBack := failures.map SyncFailure.path ++ deferred.map Conflict.path ++
          transfers.late.map Conflict.path
        let (d, state, checkpointError) :=
          if failures.any SyncFailure.fatal then (d, state, none)
          else d.checkpoint fails transfers holdBack state
        (d, some
          ({ upload := transfers.done
             download := plan.download
             conflicts := deferred ++ transfers.late
             failures
             checkpointError }, state))

/-- Deferred and late conflicts become a plan of their own; otherwise none is
pending. `false` when recording the result throws. -/
def finishCycle (d : Driver) (fails : List Await) (result : SyncResult) (state : VaultSyncState) :
    Driver × Bool :=
  let d := { d with pending := (SyncPlan.fromLateConflicts result).map fun plan => ⟨plan, state⟩ }
  if .recordSync ∈ fails then (d, false)
  else
    let d :=
      if 0 < result.upload.length ∨ 0 < result.download.length then
        { d with lastActivity := d.clock }
      else d
    if result.failures.any SyncFailure.fatal ∨ result.checkpointError.isSome then
      (d.noteFailure, true)
    else ({ d with failures := 0 }, true)

/-! ## Works -/

/-- `completeSync` and `finishCycle`; `false` when one of them throws. -/
def complete (d : Driver) (fails : List Await) (transfers : Transfers) (pending : Pending)
    (resolutions : List ConflictResolution) : Driver × Bool :=
  match d.completeSync fails transfers pending.plan resolutions pending.state with
  | (d, none) => (d, false)
  | (d, some (result, state)) => d.finishCycle fails result state

def runSync (d : Driver) (ignore : IgnoreRules) (view : View) (fails : List Await)
    (transfers : Transfers) : Driver × Bool :=
  if .cycleFor ∈ fails ∨ d.keys = false then (d, false)
  else
    -- A fresh cycle supersedes any plan left over from an earlier one.
    match Driver.prepareSync { d with pending := none } ignore view fails transfers with
    | (d, none) => (d, false)
    | (d, some pending) =>
        if pending.plan.conflicts.length = 0 then d.complete fails transfers pending []
        else ({ d with pending := some pending }, true)

/-- An error of a work is noted before it is thrown on. -/
def noted : Driver × Bool → Driver
  | (d, true) => d
  | (d, false) => d.noteFailure

def syncVault (d : Driver) (ignore : IgnoreRules) (view : View) (fails : List Await)
    (transfers : Transfers) : Driver :=
  (noted (d.runSync ignore view fails transfers)).leave

def resolveConflict (d : Driver) (fails : List Await) (transfers : Transfers) (pending : Pending)
    (resolutions : List ConflictResolution) : Driver :=
  if .cycleFor ∈ fails ∨ d.keys = false then d.leave
  else (noted (d.complete fails transfers pending (deferTheRest pending.plan resolutions))).leave

/-- A poll, up to what it queues: `none` when it returns at once. -/
def poll (d : Driver) : Option Driver :=
  if d.paused ∨ d.running ∨ d.clock < d.suppressedUntil ∨ d.pending.isSome then none
  else if d.keys = false then none
  else some (d.enqueue .poll)

/-- Whether the server or the folder changed; `none` when this throws. -/
def lookForChanges (d : Driver) (ignore : IgnoreRules) (view : View) (fails : List Await) :
    Driver × Option Bool :=
  if .cycleFor ∈ fails ∨ d.keys = false ∨ .loadSyncState ∈ fails then (d, none)
  else if .remoteChanged ∈ fails ∧ d.loadSyncState.remoteCache.isSome then (d, none)
  else
    match remoteChanged d.loadSyncState view.server with
    | (true, state) =>
        if .saveSyncState ∈ fails then (d, none) else (d.saveSyncState state, some true)
    | (false, _) => d.detectChanges ignore view fails

/-- The first part of the work of a poll. -/
def check (d : Driver) (ignore : IgnoreRules) (view : View) (fails : List Await) : Driver :=
  match d.lookForChanges ignore view fails with
  | (d, none) => d.noteFailure.leave.schedule
  | (d, some false) => d.leave.schedule
  | (d, some true) => { d with lastActivity := d.clock, running := true, work := some .cycling }

/-- The cycle of a poll, and its plan. -/
def pollCycle (d : Driver) (ignore : IgnoreRules) (view : View) (fails : List Await)
    (transfers : Transfers) : Driver × Option SyncPlan :=
  if .cycleFor ∈ fails ∨ d.keys = false then (d.noteFailure, none)
  else
    match d.prepareSync ignore view fails transfers with
    | (d, none) => (d.noteFailure, none)
    | (d, some pending) =>
        (noted (d.complete fails transfers pending (deferTheRest pending.plan [])),
          some pending.plan)

/-! ## Steps -/

inductive Event where
  | wait (ms : Nat)
  | setPaused (value : Bool)
  /-- The vault is unlocked or locked. -/
  | setKeys (held : Bool)
  | startDriver
  /-- A listing of the vaults saves the record. -/
  | saveSyncState (state : VaultSyncState)
  | timer
  | syncVault
  | resolveConflict (resolutions : List ConflictResolution)
  /-- The next job of the queue begins. -/
  | start
  | check (view : View) (fails : List Await)
  | finish (view : View) (fails : List Await) (transfers : Transfers)

/-- The timer callback. The next timer is set when the poll is over. -/
def fire (d : Driver) : Option Driver :=
  match d.timer with
  | none => none
  | some due =>
      if d.clock < due then none
      else
        let d := { d with timer := none }
        some (d.poll.getD d.schedule)

def start (d : Driver) : Option Driver :=
  match d.work, d.queue with
  | none, .poll :: rest => some { d with queue := rest, work := some .checking }
  | none, .sync :: rest => some { d with queue := rest, running := true, work := some .syncing }
  | none, .resolve resolutions :: rest =>
      match d.pending with
      | none => some { d with queue := rest }
      | some pending =>
          some { d with
                 queue := rest, running := true, work := some (.resolving pending resolutions) }
  | _, _ => none

def finish (d : Driver) (ignore : IgnoreRules) (view : View) (fails : List Await)
    (transfers : Transfers) : Option Driver :=
  match d.work with
  | some .cycling => some (d.pollCycle ignore view fails transfers).1.leave.schedule
  | some .syncing => some (d.syncVault ignore view fails transfers)
  | some (.resolving pending resolutions) =>
      some (d.resolveConflict fails transfers pending resolutions)
  | _ => none

def step (ignore : IgnoreRules) (d : Driver) : Event → Option Driver
  | .wait ms => some { d with clock := d.clock + ms }
  | .setPaused value => some (d.setPaused value)
  | .setKeys held => some { d with keys := held }
  | .startDriver => some d.startDriver
  | .saveSyncState state => some (d.saveSyncState state)
  | .timer => d.fire
  | .syncVault => some (d.enqueue .sync)
  | .resolveConflict resolutions => some (d.enqueue (.resolve resolutions))
  | .start => d.start
  | .check view fails =>
      match d.work with
      | some .checking => some (d.check ignore view fails)
      | _ => none
  | .finish view fails transfers => d.finish ignore view fails transfers

end Driver

end ObSink.Web.Polls
