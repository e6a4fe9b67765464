import Mathlib.Logic.Relation
import ObSink.Engine.HashCache

/-! # The records of a vault in the browser

The worker keeps a vault's entry, its folder handle and its sync record in
IndexedDB. `web/src/worker/vaults.ts` and `driver.ts` read and write them from
several async functions at once: what a driver does is queued, one work at a
time, while listing, removing and adding a vault are not. A step here runs one
of them from one `await` to the next, for one vault id; what is awaited takes
effect in that step. Times, progress, the activity log and the transfers
themselves are left out.
-/

namespace ObSink.Web

open Engine (HashCache RemoteManifestCache)

structure StoredVault where
  handleId : Nat
  deriving DecidableEq, Repr

/-- The sync record of a vault. -/
structure VaultSyncState where
  base : Manifest := ∅
  remoteCache : Option RemoteManifestCache := none
  hashCache : Option HashCache := none
  deriving DecidableEq

/-- What the server answers to a manifest request. -/
inductive Fetched where
  | notModified
  | modified (manifest : Manifest) (etag : Option String)

/-- The server manifest through the cache of a record; `none` is a 304 without
a cache, which throws. -/
def VaultSyncState.fetchRemoteManifest (state : VaultSyncState) :
    Fetched → Option (Manifest × VaultSyncState)
  | .notModified => state.remoteCache.map fun cache => (cache.manifest, state)
  | .modified manifest etag =>
      some (manifest, { state with remoteCache := etag.map fun etag => ⟨some etag, manifest⟩ })

/-- A record in memory. `attachment` and `checkpoints` say when it was loaded:
how often a folder had been set, and how many checkpoints had been written. -/
structure Loaded where
  record : VaultSyncState
  attachment : Nat
  checkpoints : Nat
  deriving DecidableEq

/-- What a record is loaded for. -/
inductive Purpose where
  /-- A poll asks whether the server changed. -/
  | check
  /-- `detectChanges` -/
  | detect
  /-- `prepareSync` -/
  | prepare
  /-- `vaultState` -/
  | list
  deriving DecidableEq, Repr

/-- What is awaited. -/
inductive Point where
  /-- `cycleFor` reads the entry and the handle; a poll does so before it asks
  (`begun = false`) and again for its cycle. -/
  | entry (begun : Bool)
  | handle (vault : StoredVault) (begun : Bool)
  | load (purpose : Purpose)
  | ask (loaded : Loaded)
  | scan (purpose : Purpose) (loaded : Loaded)
  | fetch (purpose : Purpose) (loaded : Loaded)
  | download (loaded : Loaded)
  | save (purpose : Purpose) (loaded : Loaded)
  /-- Resolutions and uploads of `completeSync`. -/
  | transfer (loaded : Loaded)
  | refetch (loaded : Loaded)
  | checkpoint (loaded : Loaded)
  | report (loaded : Loaded)
  /-- `recordSync` of `finishCycle`. -/
  | recordSync
  /-- `listVaults` reads the entries, then asks the server. -/
  | storedVaults
  | summaries (vault : StoredVault)
  | listHandle (vault : StoredVault)
  | permission
  /-- `removeVault`, or with `strict` `deleteRemoteVault`, tells the server. -/
  | detach (strict : Bool)
  /-- `forgetVault` -/
  | forget
  | dropEntry (vault : Option StoredVault)
  | dropHandle (vault : StoredVault)
  | dropState
  | dropActivity
  /-- `createVault` and `downloadVault` read the handle, talk to the server and
  `adopt`. -/
  | picked (handleId : Nat)
  | server (handleId : Nat)
  | adopt (handleId : Nat)
  | attachDevice
  /-- `unlockStoredVaults` -/
  | unlockStored
  | unlockServer
  deriving DecidableEq

/-- What is queued on a driver. -/
inductive Job where
  | poll
  | sync
  | resolve
  deriving DecidableEq, Repr

/-- What runs: a job of a driver, or a function a page called. -/
inductive Work where
  | poll
  | sync
  | resolve (pending : Loaded)
  | page
  deriving DecidableEq

/-- The driver of a vault. `pending` is the record of the plan a cycle stopped
on, `armed` whether its timer is set. -/
structure Driver where
  running : Bool := false
  pending : Option Loaded := none
  queue : List Job := []
  work : Option (Work × Point) := none
  armed : Bool := false
  deriving DecidableEq

/-- The worker, as far as it concerns one vault id. Drivers are numbered in the
order they were made, `current` is the one in the map. `attachment`,
`checkpoints` and `checkpointed` are not in the worker: how often a folder was
set, how many checkpoints were written, and the base of the last one of the
present attachment. -/
structure App where
  entry : Option StoredVault := none
  handles : List Nat := []
  state : Option VaultSyncState := none
  keys : Bool := false
  current : Option Nat := none
  drivers : List Driver := []
  pages : List Point := []
  attachment : Nat := 0
  checkpoints : Nat := 0
  checkpointed : Manifest := ∅

/-! ## Drivers -/

def App.updateDriver (app : App) (number : Nat) (change : Driver → Driver) : App :=
  { app with drivers := app.drivers.modify number change }

/-- The driver in the map, made if there is none. -/
def App.driverFor (app : App) : App × Nat :=
  match app.current with
  | some number => (app, number)
  | none =>
      ({ app with current := some app.drivers.length, drivers := app.drivers ++ [{}] },
        app.drivers.length)

def App.currentDriver (app : App) : Option Driver :=
  app.current.bind fun number => app.drivers[number]?

def App.inFlight (app : App) : Bool := app.currentDriver.any Driver.running

def App.pendingConflicts (app : App) : Bool :=
  app.currentDriver.any fun driver => driver.pending.isSome

def Driver.enqueue (driver : Driver) (job : Job) : Driver :=
  { driver with queue := driver.queue ++ [job] }

def Driver.arm (driver : Driver) : Driver := { driver with armed := true }

def App.enqueue (app : App) (job : Job) : App :=
  let (app, number) := app.driverFor
  app.updateDriver number (·.enqueue job)

def App.startDriver (app : App) : App :=
  let (app, number) := app.driverFor
  app.updateDriver number Driver.arm

def App.stopDriver (app : App) : App :=
  match app.current with
  | none => app
  | some number =>
      App.updateDriver { app with current := none } number fun driver =>
        { driver with armed := false }

/-! ## From one `await` to the next -/

/-- What an awaited operation brings: whether it throws, and what it finds. -/
structure Input where
  failed : Bool := false
  fetched : Fetched := .notModified
  hashes : Option HashCache := none
  changed : Bool := false
  conflicts : Bool := false
  fatal : Bool := false
  holdBack : List String := []

/-- Where an error is caught and does not end the function. -/
def Point.catches : Point → Bool
  | .refetch _ | .checkpoint _ | .report _ | .detach false => true
  | _ => false

/-- What the awaited operation does to the records. -/
def App.commit (app : App) (input : Input) (point : Point) : App :=
  if input.failed then app
  else
    match point with
    | .save _ loaded => { app with state := some loaded.record }
    | .checkpoint loaded =>
        { app with
          state := some loaded.record
          checkpoints := app.checkpoints + 1
          checkpointed :=
            if app.entry.isSome ∧ loaded.attachment = app.attachment then loaded.record.base
            else app.checkpointed }
    | .adopt handleId =>
        { app with
          entry := some ⟨handleId⟩
          attachment := app.attachment + 1
          checkpointed := ∅ }
    | .dropEntry _ => { app with entry := none }
    | .dropHandle vault => { app with handles := app.handles.filter (· ≠ vault.handleId) }
    | .dropState => { app with state := none }
    | _ => app

/-- What is awaited next; `none` when the function is done or throws. -/
def App.resume (app : App) (work : Work) (input : Input) (point : Point) : Option Point :=
  if input.failed ∧ point.catches = false then none
  else
    match point with
    | .entry begun =>
        match app.entry with
        | none => none
        | some vault => if app.keys then some (.handle vault begun) else none
    | .handle vault begun =>
        if vault.handleId ∈ app.handles then
          match work, begun with
          | .poll, false => some (.load .check)
          | .resolve pending, _ => some (.transfer pending)
          | _, _ => some (.load .prepare)
        else none
    | .load purpose =>
        let loaded : Loaded := ⟨app.state.getD {}, app.attachment, app.checkpoints⟩
        match purpose with
        | .check =>
            if loaded.record.remoteCache.isSome then some (.ask loaded)
            else some (.save .check loaded)
        | purpose => some (.scan purpose loaded)
    | .ask loaded =>
        match input.fetched with
        | .notModified => some (.load .detect)
        | .modified manifest etag =>
            (loaded.record.fetchRemoteManifest (.modified manifest etag)).map fun found =>
              .save .check { loaded with record := found.2 }
    | .scan purpose loaded =>
        some (.fetch purpose
          { loaded with record := { loaded.record with hashCache := input.hashes } })
    | .fetch purpose loaded =>
        (loaded.record.fetchRemoteManifest input.fetched).map fun found =>
          match purpose with
          | .prepare => .download { loaded with record := found.2 }
          | purpose => .save purpose { loaded with record := found.2 }
    | .download loaded => some (.save .prepare loaded)
    | .save .check _ => some (.entry true)
    | .save .detect _ => if input.changed then some (.entry true) else none
    | .save .prepare loaded =>
        if work = .sync ∧ input.conflicts = true then none else some (.transfer loaded)
    | .save .list _ => none
    | .transfer loaded => if input.fatal then some .recordSync else some (.refetch loaded)
    | .refetch loaded =>
        match input.failed, loaded.record.fetchRemoteManifest input.fetched with
        | false, some (remote, record) =>
            some (.checkpoint
              { loaded with
                record :=
                  { record with base := checkpointManifest record.base remote input.holdBack } })
        | _, _ => some .recordSync
    | .checkpoint loaded => if input.failed then some .recordSync else some (.report loaded)
    | .report _ => some .recordSync
    | .recordSync => none
    | .storedVaults => app.entry.map .summaries
    | .summaries vault =>
        if app.inFlight ∨ app.pendingConflicts ∨ app.keys = false then none
        else some (.listHandle vault)
    | .listHandle vault => if vault.handleId ∈ app.handles then some .permission else none
    | .permission => some (.load .list)
    | .detach _ => some .forget
    | .forget => some (.dropEntry app.entry)
    | .dropEntry vault => some (vault.elim .dropState .dropHandle)
    | .dropHandle _ => some .dropState
    | .dropState => some .dropActivity
    | .dropActivity => none
    | .picked handleId => if handleId ∈ app.handles then some (.server handleId) else none
    | .server handleId => some (.adopt handleId)
    | .adopt _ => some .attachDevice
    | .attachDevice => none
    | .unlockStored => app.entry.map fun _ => .unlockServer
    | .unlockServer => none

/-- What a function of a page does in memory on the way. -/
def App.carryOn (app : App) (input : Input) (point : Point) : App :=
  if input.failed then app
  else
    match point with
    | .forget => { app.stopDriver with keys := false }
    | .server _ => { app with keys := true }
    | .attachDevice => app.startDriver
    | .unlockServer => if app.keys then app else App.startDriver { app with keys := true }
    | _ => app

/-- What a work does to its driver on the way to the next point. -/
def Driver.carryOn (driver : Driver) (mapped : Bool) (work : Work) (input : Input) (point : Point)
    (next : Option Point) : Driver :=
  let driver := { driver with work := next.map fun point => (work, point) }
  let driver :=
    match work, point, next with
    | .sync, .handle _ _, some (.load .prepare) => { driver with pending := none }
    | .sync, .save .prepare loaded, none =>
        if input.failed then driver else { driver with pending := some loaded }
    | _, .save .check _, some _ | _, .save .detect _, some _ => { driver with running := true }
    | _, .transfer loaded, some .recordSync | _, .refetch loaded, some .recordSync
    | _, .checkpoint loaded, some .recordSync | _, .report loaded, some .recordSync =>
        { driver with pending := if input.conflicts then some loaded else none }
    | _, _, _ => driver
  match next with
  | some _ => driver
  | none =>
      { driver with
        running := false
        armed := driver.armed || (work = .poll && mapped) }

/-- Take the next job off the queue. -/
def Driver.start (driver : Driver) : Option Driver :=
  match driver.work, driver.queue with
  | none, .poll :: rest => some { driver with queue := rest, work := some (.poll, .entry false) }
  | none, .sync :: rest =>
      some { driver with queue := rest, running := true, work := some (.sync, .entry true) }
  | none, .resolve :: rest =>
      match driver.pending with
      | none => some { driver with queue := rest }
      | some pending =>
          some { driver with
                 queue := rest, running := true, work := some (.resolve pending, .entry true) }
  | _, _ => none

/-! ## Steps -/

inductive Event where
  | syncVault
  | resolveConflict
  /-- The timer of a driver fires; `skips` while paused or backing off. -/
  | tick (number : Nat) (skips : Bool)
  /-- The tab is shown again. -/
  | wake
  | start (number : Nat)
  | resume (number : Nat) (input : Input)
  | listVaults
  | removeVault
  | deleteRemoteVault
  | forgetVault
  | addVault (handleId : Nat)
  | unlockVaults
  | page (index : Nat) (input : Input)
  | pickFolder (handleId : Nat)
  /-- The server took the bearer no more, or another account signed in. -/
  | forgetAccountKey
  | signOut

def App.openPage (app : App) (point : Point) : App := { app with pages := app.pages ++ [point] }

/-- The timer callback: `poll` returns early, or queues its work. -/
def App.tick (app : App) (number : Nat) (skips : Bool) : Option App :=
  match app.drivers[number]? with
  | none => none
  | some driver =>
      if driver.armed = false then none
      else if app.current.isNone then
        some (app.updateDriver number fun driver => { driver with armed := false })
      else if skips ∨ driver.running ∨ driver.pending.isSome ∨ app.keys = false then some app
      else
        some (app.updateDriver number fun driver => { driver.enqueue .poll with armed := false })

def App.step (app : App) : Event → Option App
  | .syncVault => some (app.enqueue .sync)
  | .resolveConflict => some (app.enqueue .resolve)
  | .tick number skips => app.tick number skips
  | .wake =>
      match app.current with
      | none => some app
      | some number => some (app.updateDriver number Driver.arm)
  | .start number =>
      (app.drivers[number]?.bind Driver.start).map fun driver =>
        app.updateDriver number fun _ => driver
  | .resume number input =>
      match app.drivers[number]? with
      | none => none
      | some driver =>
          driver.work.map fun (work, point) =>
            (app.commit input point).updateDriver number fun driver =>
              driver.carryOn app.current.isSome work input point (app.resume work input point)
  | .listVaults => some (app.openPage .storedVaults)
  | .removeVault => if app.inFlight then none else some (app.openPage (.detach false))
  | .deleteRemoteVault => if app.inFlight then none else some (app.openPage (.detach true))
  | .forgetVault => some (app.openPage .forget)
  | .addVault handleId => some (app.openPage (.picked handleId))
  | .unlockVaults => some (app.openPage .unlockStored)
  | .page index input =>
      match app.pages[index]? with
      | none => none
      | some point =>
          let after := (app.commit input point).carryOn input point
          match app.resume .page input point with
          | some next => some { after with pages := after.pages.set index next }
          | none => some { after with pages := after.pages.eraseIdx index }
  | .pickFolder handleId => some { app with handles := handleId :: app.handles }
  | .forgetAccountKey => some { app with keys := false }
  | .signOut =>
      -- the stored vaults are told to stop
      some { (if app.entry.isSome then app.stopDriver else app) with keys := false }

/-- One step from a state in which it meets the condition. -/
def StepsWhen (condition : App → Event → Prop) (before after : App) : Prop :=
  ∃ event, condition before event ∧ before.step event = some after

/-- The states that runs lead to whose steps all meet the condition. -/
def ReachableWhen (condition : App → Event → Prop) (app : App) : Prop :=
  Relation.ReflTransGen (StepsWhen condition) {} app

/-- The stored base of a vault is that of the last checkpoint since its folder
was set. -/
def App.UpToDate (app : App) : Prop :=
  app.entry.isSome = true → (app.state.getD {}).base = app.checkpointed

end ObSink.Web
