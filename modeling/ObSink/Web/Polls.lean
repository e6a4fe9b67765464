import ObSink.Lib.Runs
import ObSink.Web.Driver

/-! # What a pending plan holds up

A poll of the browser looks for changes, and its cycle plans every path on
which folder and server differ, with conflicts deferred so that the rest keeps
syncing. But it returns at once while a plan is pending, and a cycle that met a
conflict leaves one.
-/

namespace ObSink.Web.Polls

namespace Driver

/-! ## What is promised -/

/-- Nothing but a pending plan keeps a poll from its work. -/
def Idle (d : Driver) : Prop :=
  d.paused = false ∧ d.running = false ∧ d.suppressedUntil ≤ d.clock ∧ d.keys = true

instance (d : Driver) : Decidable d.Idle := by unfold Idle; infer_instance

/-- The folder or the server differs from the base on a path. -/
def Changed (d : Driver) (view : View) (path : String) : Prop :=
  version view.current[path]? ≠ version d.loadSyncState.base[path]? ∨
    version view.server.manifest[path]? ≠ version d.loadSyncState.base[path]?

/-- What a poll meets, in its two parts. -/
structure PollInput where
  view : View
  checkFails : List Await := []
  cycleFails : List Await := []
  transfers : Transfers

/-- The plan of the cycle of a poll that is called at `d` and has its turn at
`turn`, if it runs one. -/
def polled (d : Driver) (ignore : IgnoreRules) (turn : Driver) (input : PollInput) :
    Option SyncPlan :=
  d.poll.bind fun _ =>
    (turn.step ignore (.check input.view input.checkFails)).bind fun checked =>
      if checked.work = some .cycling then
        (checked.pollCycle ignore input.view input.cycleFails input.transfers).2
      else none

/-- What a poll awaits before its cycle, if the folder or the server changed. -/
def awaits (d : Driver) (server : ServerState) : List Await :=
  match d.loadSyncState.remoteCache with
  | none => [.cycleFor, .loadSyncState, .saveSyncState]
  | some cache =>
      match server.getManifest cache.etag with
      | .modified _ _ => [.cycleFor, .loadSyncState, .remoteChanged, .saveSyncState]
      | .notModified =>
          [.cycleFor, .loadSyncState, .remoteChanged, .loadLocalState, .fetchRemoteManifest,
            .saveSyncState]

/-- Nothing throws on the way of a poll to its plan. -/
def Clear (turn : Driver) (input : PollInput) : Prop :=
  turn.keys = true ∧ (∀ await ∈ turn.awaits input.view.server, await ∉ input.checkFails) ∧
    ∀ await ∈ [Await.cycleFor, .loadLocalState, .fetchRemoteManifest, .saveSyncState],
      await ∉ input.cycleFails

instance (turn : Driver) (input : PollInput) : Decidable (turn.Clear input) := by
  unfold Clear; infer_instance

end Driver

/-- A plan has something to do at a path. -/
def Lists (plan : SyncPlan) (path : String) : Prop :=
  path ∈ plan.upload.map SyncAction.path ∨ path ∈ plan.download.map SyncAction.path ∨
    path ∈ plan.conflicts.map Conflict.path

/-! ## The cache of the server manifest

An ETag names one manifest, which `manifestAt` gives. -/

section Fits

variable (manifestAt : String → Manifest)

def ServerState.fits (server : ServerState) : Bool :=
  server.etag.all fun etag => server.manifest = manifestAt etag

def fits (state : VaultSyncState) : Bool :=
  state.remoteCache.all fun cache => cache.etag.all fun etag => cache.manifest = manifestAt etag

/-- The server answers under the ETag of what it has. -/
def truthful : Driver.Event → Bool
  | .saveSyncState state => fits manifestAt state
  | .check view _ => view.server.fits manifestAt
  | .finish view _ transfers =>
      view.server.fits manifestAt && transfers.refetched.fits manifestAt
  | _ => true

/-- The states of the runs from a driver. -/
def Reachable (ignore : IgnoreRules) (first : Driver) : Driver → Prop :=
  Runs.Reaches (Driver.step ignore) (fun _ event => truthful manifestAt event = true) first

/-- Every record in a driver has a true cache. -/
structure Sound (d : Driver) : Prop where
  stored : fits manifestAt d.loadSyncState = true
  pending : ∀ {pending}, d.pending = some pending → fits manifestAt pending.state = true
  resolving : ∀ {pending resolutions}, d.work = some (.resolving pending resolutions) →
    fits manifestAt pending.state = true

end Fits

variable {manifestAt : String → Manifest} {ignore : IgnoreRules} {d : Driver} {view : View}
  {fails : List Await} {transfers : Transfers} {state : VaultSyncState} {server : ServerState}

/-- A 304 is about the manifest the server has. -/
theorem fetchRemoteManifest_eq (hstate : fits manifestAt state = true)
    (hserver : server.fits manifestAt = true) :
    ∃ after, Driver.fetchRemoteManifest state server = some (server.manifest, after) ∧
      fits manifestAt after = true ∧ after.base = state.base := by
  have hmodified : fits manifestAt { state with
      remoteCache := server.etag.map fun etag => ⟨some etag, server.manifest⟩ } = true := by
    cases hetag : server.etag with
    | none => rfl
    | some etag => simpa [fits, ServerState.fits, hetag] using hserver
  cases hcache : state.remoteCache with
  | none =>
      refine ⟨_, ?_, hmodified, rfl⟩
      simp [Driver.fetchRemoteManifest, hcache, ServerState.getManifest,
        VaultSyncState.fetchRemoteManifest]
  | some cache =>
      by_cases hhit : cache.etag.isSome ∧ cache.etag = server.etag
      · refine ⟨state, ?_, hstate, rfl⟩
        have hsame : cache.manifest = server.manifest := by
          obtain ⟨etag, hetag⟩ := Option.isSome_iff_exists.mp hhit.1
          have hserved : server.etag = some etag := hhit.2 ▸ hetag
          simp only [fits, hcache, hetag, Option.all_some, decide_eq_true_eq] at hstate
          simp only [ServerState.fits, hserved, Option.all_some, decide_eq_true_eq] at hserver
          rw [hstate, hserver]
        simp only [Driver.fetchRemoteManifest, hcache, Option.bind_some, ServerState.getManifest,
          if_pos hhit, VaultSyncState.fetchRemoteManifest, Option.map_some, hsame]
      · refine ⟨_, ?_, hmodified, rfl⟩
        simp only [Driver.fetchRemoteManifest, hcache, Option.bind_some, ServerState.getManifest,
          if_neg hhit, VaultSyncState.fetchRemoteManifest]

/-- Saving a record that fits is all a work does to the stored one. -/
def Saved (manifestAt : String → Manifest) (d after : Driver) : Prop :=
  after = d ∨ ∃ state, fits manifestAt state = true ∧ after = d.saveSyncState state

theorem loadBoth_eq (fails : List Await) (hstored : fits manifestAt d.loadSyncState = true)
    (hserver : view.server.fits manifestAt = true) :
    ∃ state, fits manifestAt state = true ∧ state.base = d.loadSyncState.base ∧
      d.loadBoth view fails =
        if .loadLocalState ∈ fails ∨ .fetchRemoteManifest ∈ fails then none
        else some (view.server.manifest, state) := by
  have hwalked : fits manifestAt { d.loadSyncState with hashCache := view.hashes } = true := hstored
  obtain ⟨state, hfetch, hfits, hbase⟩ := fetchRemoteManifest_eq hwalked hserver
  exact ⟨state, hfits, hbase, by rw [Driver.loadBoth, hfetch]⟩

/-- What `detectChanges` and `prepareSync` compare. -/
def Driver.foundDiff (d : Driver) (ignore : IgnoreRules) (view : View) : ManifestDiff :=
  d.diff ignore view d.loadSyncState view.server.manifest

theorem detectChanges_eq (ignore : IgnoreRules) (fails : List Await)
    (hstored : fits manifestAt d.loadSyncState = true)
    (hserver : view.server.fits manifestAt = true) :
    ∃ state, fits manifestAt state = true ∧ d.detectChanges ignore view fails =
      if .loadLocalState ∈ fails ∨ .fetchRemoteManifest ∈ fails ∨ .saveSyncState ∈ fails then
        (d, none)
      else (d.saveSyncState state,
        some (0 < (d.foundDiff ignore view).upload.length ||
          0 < (d.foundDiff ignore view).download.length ||
          0 < (d.foundDiff ignore view).conflicts.length)) := by
  obtain ⟨state, hfits, hbase, hload⟩ := loadBoth_eq fails hstored hserver
  refine ⟨state, hfits, ?_⟩
  rw [Driver.detectChanges, hload]
  by_cases hread : .loadLocalState ∈ fails ∨ .fetchRemoteManifest ∈ fails
  · rw [if_pos hread, if_pos (by tauto)]
  · rw [if_neg hread]
    by_cases hsave : .saveSyncState ∈ fails
    · rw [if_pos (by tauto)]
      exact if_pos hsave
    · rw [if_neg (by tauto)]
      simp only [if_neg hsave, Driver.foundDiff, Driver.diff, hbase]
      rfl

theorem prepareSync_eq (ignore : IgnoreRules) (fails : List Await) (transfers : Transfers)
    (hstored : fits manifestAt d.loadSyncState = true)
    (hserver : view.server.fits manifestAt = true) :
    ∃ state, fits manifestAt state = true ∧ d.prepareSync ignore view fails transfers =
      if .loadLocalState ∈ fails ∨ .fetchRemoteManifest ∈ fails ∨ .saveSyncState ∈ fails then
        (d, none)
      else (d.saveSyncState state,
        some ⟨⟨(d.foundDiff ignore view).upload, (d.foundDiff ignore view).download,
          (d.foundDiff ignore view).conflicts, transfers.downloadFailures⟩, state⟩) := by
  obtain ⟨state, hfits, hbase, hload⟩ := loadBoth_eq fails hstored hserver
  refine ⟨state, hfits, ?_⟩
  rw [Driver.prepareSync, hload]
  by_cases hread : .loadLocalState ∈ fails ∨ .fetchRemoteManifest ∈ fails
  · rw [if_pos hread, if_pos (by tauto)]
  · rw [if_neg hread]
    by_cases hsave : .saveSyncState ∈ fails
    · rw [if_pos (by tauto)]
      exact if_pos hsave
    · rw [if_neg (by tauto)]
      simp only [if_neg hsave, Driver.foundDiff, Driver.diff, hbase]

/-- A diff lists the paths that are not ignored and where the sides differ. -/
theorem foundDiff_lists (d : Driver) (failures : List SyncFailure) {path : String} :
    Lists ⟨(d.foundDiff ignore view).upload, (d.foundDiff ignore view).download,
        (d.foundDiff ignore view).conflicts, failures⟩ path ↔
      ignore.isIgnored path = false ∧
        version view.current[path]? ≠ version view.server.manifest[path]? := by
  refine path_mem_diff_iff.trans ?_
  rw [ne_eq, decisionAt_eq_nothing_iff, Engine.keep_getElem?, Engine.keep_getElem?]
  cases hignored : ignore.isIgnored path with
  | true => simp
  | false => simp [Engine.version_addTombstones]

/-! ### The caches of a run -/

theorem Sound.keeps {after : Driver} (hsound : Sound manifestAt d) (hstate : after.state = d.state)
    (hpending : after.pending = d.pending ∨ after.pending = none)
    (hwork : ∀ {pending resolutions}, after.work = some (.resolving pending resolutions) →
      d.work = some (.resolving pending resolutions) ∨ d.pending = some pending) :
    Sound manifestAt after where
  stored := by
    rw [Driver.loadSyncState, hstate]
    exact hsound.stored
  pending := by
    intro pending hheld
    rcases hpending with hsame | hnone
    · exact hsound.pending (hsame ▸ hheld)
    · rw [hnone] at hheld
      cases hheld
  resolving := by
    intro pending resolutions hresolving
    rcases hwork hresolving with hold | hold
    · exact hsound.resolving hold
    · exact hsound.pending hold

/-- The same record, plan and work. -/
theorem Sound.same {after : Driver} (hsound : Sound manifestAt d) (hstate : after.state = d.state)
    (hpending : after.pending = d.pending) (hwork : after.work = d.work) : Sound manifestAt after :=
  hsound.keeps hstate (.inl hpending) fun hresolving => .inl (hwork ▸ hresolving)

theorem Sound.saveSyncState (hsound : Sound manifestAt d) (hfits : fits manifestAt state = true) :
    Sound manifestAt (d.saveSyncState state) :=
  ⟨hfits, hsound.pending, hsound.resolving⟩

theorem Sound.saved {after : Driver} (hsound : Sound manifestAt d)
    (hsaved : Saved manifestAt d after) : Sound manifestAt after := by
  rcases hsaved with rfl | ⟨state, hfits, rfl⟩
  · exact hsound
  · exact hsound.saveSyncState hfits

theorem Sound.leave (hsound : Sound manifestAt d) : Sound manifestAt d.leave :=
  hsound.keeps rfl (.inl rfl) nofun

theorem Sound.schedule (hsound : Sound manifestAt d) : Sound manifestAt d.schedule :=
  hsound.same rfl rfl rfl

theorem Sound.noteFailure (hsound : Sound manifestAt d) : Sound manifestAt d.noteFailure :=
  hsound.same rfl rfl rfl

theorem Sound.noted {worked : Driver × Bool} (hsound : Sound manifestAt worked.1) :
    Sound manifestAt (Driver.noted worked) := by
  obtain ⟨d, returned⟩ := worked
  cases returned with
  | true => exact hsound
  | false => exact hsound.noteFailure

theorem lookForChanges_saved (ignore : IgnoreRules) (fails : List Await)
    (hstored : fits manifestAt d.loadSyncState = true)
    (hserver : view.server.fits manifestAt = true) :
    Saved manifestAt d (d.lookForChanges ignore view fails).1 := by
  unfold Driver.lookForChanges
  split
  · exact .inl rfl
  · split
    · exact .inl rfl
    · unfold Driver.remoteChanged
      cases hcache : d.loadSyncState.remoteCache with
      | none =>
          dsimp only
          split
          · exact .inl rfl
          · exact .inr ⟨_, hstored, rfl⟩
      | some cache =>
          dsimp only
          unfold ServerState.getManifest
          by_cases hhit : cache.etag.isSome ∧ cache.etag = view.server.etag
          · rw [if_pos hhit]
            obtain ⟨state, hfits, hdetect⟩ :=
              detectChanges_eq ignore fails hstored hserver
            dsimp only
            rw [hdetect]
            split
            · exact .inl rfl
            · exact .inr ⟨state, hfits, rfl⟩
          · rw [if_neg hhit]
            dsimp only
            split
            · exact .inl rfl
            · refine .inr ⟨_, ?_, rfl⟩
              cases hetag : view.server.etag with
              | none => rfl
              | some etag => simpa [fits, ServerState.fits, hetag] using hserver

theorem checkpoint_sound {holdBack : List String} (hfits : fits manifestAt state = true)
    (hserver : transfers.refetched.fits manifestAt = true) :
    Saved manifestAt d (d.checkpoint fails transfers holdBack state).1 ∧
      fits manifestAt (d.checkpoint fails transfers holdBack state).2.1 = true := by
  unfold Driver.checkpoint
  dsimp only
  split
  · exact ⟨.inl rfl, hfits⟩
  · obtain ⟨after, hfetch, hafter, -⟩ := fetchRemoteManifest_eq hfits hserver
    have hmoved : ∀ base, fits manifestAt { after with base } = true := fun _ => hafter
    rw [hfetch]
    dsimp only
    split
    · exact ⟨.inl rfl, hmoved _⟩
    · exact ⟨.inr ⟨_, hmoved _, rfl⟩, hmoved _⟩

theorem completeSync_sound (d : Driver) (fails : List Await) (plan : SyncPlan)
    (resolutions : List ConflictResolution)
    (hfits : fits manifestAt state = true)
    (hserver : transfers.refetched.fits manifestAt = true) :
    Saved manifestAt d (d.completeSync fails transfers plan resolutions state).1 ∧
      ∀ {result after}, (d.completeSync fails transfers plan resolutions state).2 =
        some (result, after) → fits manifestAt after = true := by
  unfold Driver.completeSync
  split
  · exact ⟨.inl rfl, nofun⟩
  · split
    · exact ⟨.inl rfl, nofun⟩
    · dsimp only
      split
      · refine ⟨.inl rfl, fun hsome => ?_⟩
        obtain rfl := (Prod.mk.inj (Option.some.inj hsome)).2
        exact hfits
      · obtain ⟨hsaved, hafter⟩ := checkpoint_sound (d := d) hfits hserver
        refine ⟨hsaved, fun hsome => ?_⟩
        obtain rfl := (Prod.mk.inj (Option.some.inj hsome)).2
        exact hafter

theorem Sound.finishCycle {result : SyncResult} (hsound : Sound manifestAt d)
    (hfits : fits manifestAt state = true) :
    Sound manifestAt (d.finishCycle fails result state).1 := by
  have hpending : Sound manifestAt { d with
      pending := (SyncPlan.fromLateConflicts result).map fun plan => ⟨plan, state⟩ } := by
    refine ⟨hsound.stored, ?_, hsound.resolving⟩
    intro pending hheld
    obtain ⟨plan, -, rfl⟩ := Option.map_eq_some_iff.mp hheld
    exact hfits
  unfold Driver.finishCycle
  dsimp only
  split
  · exact hpending
  · split <;> split <;> exact hpending.same rfl rfl rfl

theorem Sound.complete {pending : Pending} {resolutions : List ConflictResolution}
    (hsound : Sound manifestAt d) (hfits : fits manifestAt pending.state = true)
    (hserver : transfers.refetched.fits manifestAt = true) :
    Sound manifestAt (d.complete fails transfers pending resolutions).1 := by
  obtain ⟨hsaved, hafter⟩ := completeSync_sound d fails pending.plan resolutions hfits hserver
  unfold Driver.complete
  split
  next hnone =>
    rw [hnone] at hsaved
    exact hsound.saved hsaved
  next hsome =>
    rw [hsome] at hsaved hafter
    exact (hsound.saved hsaved).finishCycle (hafter rfl)

theorem Sound.check (hsound : Sound manifestAt d) (hserver : view.server.fits manifestAt = true) :
    Sound manifestAt (d.check ignore view fails) := by
  have hafter := hsound.saved (lookForChanges_saved ignore fails hsound.stored hserver)
  unfold Driver.check
  split
  next hlook =>
    rw [hlook] at hafter
    exact hafter.noteFailure.leave.schedule
  next hlook =>
    rw [hlook] at hafter
    exact hafter.leave.schedule
  next hlook =>
    rw [hlook] at hafter
    exact hafter.keeps rfl (.inl rfl) nofun

theorem Sound.pollCycle (hsound : Sound manifestAt d) (hserver : view.server.fits manifestAt = true)
    (hrefetched : transfers.refetched.fits manifestAt = true) :
    Sound manifestAt (d.pollCycle ignore view fails transfers).1 := by
  obtain ⟨state, hfits, hprepare⟩ := prepareSync_eq ignore fails transfers hsound.stored hserver
  unfold Driver.pollCycle
  split
  · exact hsound.noteFailure
  · rw [hprepare]
    split
    next hnone =>
      split at hnone
      · cases hnone
        exact hsound.noteFailure
      · cases hnone
    next hsome =>
      split at hsome
      · cases hsome
      · cases hsome
        exact Sound.noted ((hsound.saveSyncState hfits).complete hfits hrefetched)

theorem Sound.syncVault (hsound : Sound manifestAt d) (hserver : view.server.fits manifestAt = true)
    (hrefetched : transfers.refetched.fits manifestAt = true) :
    Sound manifestAt (d.syncVault ignore view fails transfers) := by
  refine Sound.leave (Sound.noted ?_)
  have hfresh : Sound manifestAt { d with pending := none } := hsound.keeps rfl (.inr rfl) .inl
  obtain ⟨state, hfits, hprepare⟩ := prepareSync_eq ignore fails transfers hfresh.stored hserver
  unfold Driver.runSync
  split
  · exact hsound
  · rw [hprepare]
    split
    next hnone =>
      split at hnone
      · cases hnone
        exact hfresh
      · cases hnone
    next hsome =>
      split at hsome
      · cases hsome
      · cases hsome
        split
        · exact (hfresh.saveSyncState hfits).complete hfits hrefetched
        · refine ⟨hfits, ?_, hsound.resolving⟩
          intro pending hheld
          obtain rfl := Option.some.inj hheld
          exact hfits

theorem Sound.resolveConflict {pending : Pending} {resolutions : List ConflictResolution}
    (hsound : Sound manifestAt d) (hfits : fits manifestAt pending.state = true)
    (hserver : transfers.refetched.fits manifestAt = true) :
    Sound manifestAt (d.resolveConflict fails transfers pending resolutions) := by
  unfold Driver.resolveConflict
  split
  · exact hsound.leave
  · exact Sound.leave (Sound.noted (hsound.complete hfits hserver))

theorem Sound.fire {after : Driver} (hsound : Sound manifestAt d) (hfire : d.fire = some after) :
    Sound manifestAt after := by
  unfold Driver.fire at hfire
  split at hfire
  next => cases hfire
  next =>
    split at hfire
    next => cases hfire
    next =>
      obtain rfl := Option.some.inj hfire
      unfold Driver.poll
      split
      · exact hsound.same rfl rfl rfl
      · split <;> exact hsound.same rfl rfl rfl

theorem Sound.start {after : Driver} (hsound : Sound manifestAt d) (hstart : d.start = some after) :
    Sound manifestAt after := by
  unfold Driver.start at hstart
  split at hstart
  next =>
    obtain rfl := Option.some.inj hstart
    exact hsound.keeps rfl (.inl rfl) nofun
  next =>
    obtain rfl := Option.some.inj hstart
    exact hsound.keeps rfl (.inl rfl) nofun
  next =>
    split at hstart
    next =>
      obtain rfl := Option.some.inj hstart
      exact hsound.same rfl rfl rfl
    next hpending =>
      obtain rfl := Option.some.inj hstart
      refine hsound.keeps rfl (.inl rfl) fun hresolving => .inr ?_
      cases hresolving
      exact hpending
  next => cases hstart

theorem Sound.step {event : Driver.Event} {after : Driver} (hsound : Sound manifestAt d)
    (htruthful : truthful manifestAt event = true) (hstep : d.step ignore event = some after) :
    Sound manifestAt after := by
  cases event with
  | wait | setKeys | startDriver | syncVault | resolveConflict =>
      obtain rfl := Option.some.inj hstep
      exact hsound.same rfl rfl rfl
  | setPaused value =>
      obtain rfl := Option.some.inj hstep
      unfold Driver.setPaused
      split
      · exact hsound
      · dsimp only
        split <;> exact hsound.same rfl rfl rfl
  | saveSyncState state =>
      obtain rfl := Option.some.inj hstep
      exact hsound.saveSyncState htruthful
  | timer => exact hsound.fire hstep
  | start => exact hsound.start hstep
  | check view fails =>
      simp only [Driver.step] at hstep
      split at hstep
      next =>
        obtain rfl := Option.some.inj hstep
        exact hsound.check htruthful
      next => cases hstep
  | finish view fails transfers =>
      obtain ⟨hserver, hrefetched⟩ := (Bool.and_eq_true _ _).mp htruthful
      simp only [Driver.step, Driver.finish] at hstep
      split at hstep
      next =>
        obtain rfl := Option.some.inj hstep
        exact (hsound.pollCycle hserver hrefetched).leave.schedule
      next =>
        obtain rfl := Option.some.inj hstep
        exact hsound.syncVault hserver hrefetched
      next hresolving =>
        obtain rfl := Option.some.inj hstep
        exact hsound.resolveConflict (hsound.resolving hresolving) hrefetched
      next => cases hstep

theorem Sound.reachable {first : Driver} (hfirst : Sound manifestAt first)
    (hreach : Reachable manifestAt ignore first d) : Sound manifestAt d :=
  hreach.invariant hfirst fun _ _ _ hsound htruthful hstep => hsound.step htruthful hstep

/-! ## When a poll plans a path -/

theorem Saved.keys {after : Driver} (hsaved : Saved manifestAt d after) : after.keys = d.keys := by
  rcases hsaved with rfl | ⟨state, -, rfl⟩ <;> rfl

/-- A diff that lists a path is a change. -/
theorem changed_of_lists {plan : SyncPlan} {path : String} (hlists : Lists plan path) :
    (0 < plan.upload.length || 0 < plan.download.length || 0 < plan.conflicts.length) = true := by
  simp only [Bool.or_eq_true, decide_eq_true_eq]
  rcases hlists with hmem | hmem | hmem
  · obtain ⟨action, haction, -⟩ := List.mem_map.mp hmem
    exact .inl (.inl (List.length_pos_of_mem haction))
  · obtain ⟨action, haction, -⟩ := List.mem_map.mp hmem
    exact .inl (.inr (List.length_pos_of_mem haction))
  · obtain ⟨conflict, hconflict, -⟩ := List.mem_map.mp hmem
    exact .inr (List.length_pos_of_mem hconflict)

theorem detectChanges_iff {path : String} (hseen : ignore.isIgnored path = false)
    (hdiffers : version view.current[path]? ≠ version view.server.manifest[path]?)
    (hstored : fits manifestAt d.loadSyncState = true)
    (hserver : view.server.fits manifestAt = true) :
    (d.detectChanges ignore view fails).2 = some true ↔
      .loadLocalState ∉ fails ∧ .fetchRemoteManifest ∉ fails ∧ .saveSyncState ∉ fails := by
  obtain ⟨state, -, hdetect⟩ := detectChanges_eq ignore fails hstored hserver
  have hchanged := changed_of_lists ((foundDiff_lists d []).mpr ⟨hseen, hdiffers⟩)
  rw [hdetect]
  by_cases hthrows : .loadLocalState ∈ fails ∨ .fetchRemoteManifest ∈ fails ∨ .saveSyncState ∈ fails
  · rw [if_pos hthrows]
    refine ⟨nofun, fun hclear => ?_⟩
    tauto
  · rw [if_neg hthrows]
    refine ⟨fun _ => ?_, fun _ => congrArg some hchanged⟩
    tauto

/-- With a path to be planned, a poll goes on to its cycle unless it throws. -/
theorem lookForChanges_iff (fails : List Await) {path : String}
    (hseen : ignore.isIgnored path = false)
    (hdiffers : version view.current[path]? ≠ version view.server.manifest[path]?)
    (hstored : fits manifestAt d.loadSyncState = true)
    (hserver : view.server.fits manifestAt = true) :
    (d.lookForChanges ignore view fails).2 = some true ↔
      d.keys = true ∧ ∀ await ∈ d.awaits view.server, await ∉ fails := by
  unfold Driver.lookForChanges Driver.awaits
  by_cases hentry : .cycleFor ∈ fails ∨ d.keys = false ∨ .loadSyncState ∈ fails
  · rw [if_pos hentry]
    refine ⟨nofun, fun ⟨hkeys, hclear⟩ => ?_⟩
    have hboth : .cycleFor ∉ fails ∧ .loadSyncState ∉ fails := by
      cases hcache : d.loadSyncState.remoteCache with
      | none =>
          simp only [hcache] at hclear
          exact ⟨hclear _ (by simp), hclear _ (by simp)⟩
      | some cache =>
          simp only [hcache] at hclear
          cases hanswer : view.server.getManifest cache.etag <;> simp only [hanswer] at hclear <;>
            exact ⟨hclear _ (by simp), hclear _ (by simp)⟩
    simp [hkeys, hboth] at hentry
  · rw [if_neg hentry]
    simp only [not_or, Bool.not_eq_false] at hentry
    obtain ⟨hcycle, hkeys, hload⟩ := hentry
    cases hcache : d.loadSyncState.remoteCache with
    | none =>
        by_cases hsave : .saveSyncState ∈ fails <;>
          simp [Driver.remoteChanged, hcache, hsave, hkeys, hcycle, hload]
    | some cache =>
        by_cases hasks : .remoteChanged ∈ fails
        · rw [if_pos ⟨hasks, rfl⟩]
          refine ⟨nofun, fun ⟨_, hclear⟩ => ?_⟩
          cases hanswer : view.server.getManifest cache.etag <;> simp only [hanswer] at hclear <;>
            exact absurd hasks (hclear _ (by simp))
        · rw [if_neg (fun hthrows => hasks hthrows.1)]
          cases hanswer : view.server.getManifest cache.etag with
          | notModified =>
              simp only [Driver.remoteChanged, hcache, hanswer]
              rw [detectChanges_iff hseen hdiffers hstored hserver]
              simp [hkeys, hcycle, hload, hasks]
          | modified manifest etag =>
              simp only [Driver.remoteChanged, hcache, hanswer]
              by_cases hsave : .saveSyncState ∈ fails <;>
                simp [hsave, hkeys, hcycle, hload, hasks]

theorem check_work : (d.check ignore view fails).work = some .cycling ↔
    (d.lookForChanges ignore view fails).2 = some true := by
  unfold Driver.check
  split
  next hlook => simp [hlook, Driver.leave, Driver.schedule, Driver.scheduleIn]
  next hlook => simp [hlook, Driver.leave, Driver.schedule, Driver.scheduleIn]
  next hlook => simp [hlook]

theorem check_keys (hsound : Sound manifestAt d) (hserver : view.server.fits manifestAt = true) :
    (d.check ignore view fails).keys = d.keys := by
  have hkeys := (lookForChanges_saved ignore fails hsound.stored hserver).keys
  unfold Driver.check
  split <;> next hlook =>
    rw [hlook] at hkeys
    exact hkeys

/-- The plan of a poll's cycle. -/
theorem pollCycle_plan (hsound : Sound manifestAt d) (hserver : view.server.fits manifestAt = true)
    {plan : SyncPlan} :
    (d.pollCycle ignore view fails transfers).2 = some plan ↔
      (d.keys = true ∧ ∀ await ∈ [Await.cycleFor, .loadLocalState, .fetchRemoteManifest,
        .saveSyncState], await ∉ fails) ∧
      plan = ⟨(d.foundDiff ignore view).upload, (d.foundDiff ignore view).download,
        (d.foundDiff ignore view).conflicts, transfers.downloadFailures⟩ := by
  obtain ⟨state, -, hprepare⟩ := prepareSync_eq ignore fails transfers hsound.stored hserver
  unfold Driver.pollCycle
  by_cases hentry : .cycleFor ∈ fails ∨ d.keys = false
  · rw [if_pos hentry]
    refine ⟨nofun, fun ⟨⟨hkeys, hclear⟩, _⟩ => ?_⟩
    simp [hkeys, hclear .cycleFor (by simp)] at hentry
  · rw [if_neg hentry, hprepare]
    simp only [not_or, Bool.not_eq_false] at hentry
    by_cases hthrows : .loadLocalState ∈ fails ∨ .fetchRemoteManifest ∈ fails ∨
        .saveSyncState ∈ fails
    · rw [if_pos hthrows]
      refine ⟨nofun, fun ⟨⟨_, hclear⟩, _⟩ => ?_⟩
      simp [hclear .loadLocalState (by simp), hclear .fetchRemoteManifest (by simp),
        hclear .saveSyncState (by simp)] at hthrows
    · rw [if_neg hthrows]
      simp only [not_or] at hthrows
      simp [hentry, hthrows, eq_comm]

theorem poll_isSome_iff (hidle : d.Idle) : d.poll.isSome ↔ d.pending = none := by
  obtain ⟨hpaused, hrunning, hbackoff, hkeys⟩ := hidle
  unfold Driver.poll
  cases hpending : d.pending <;> simp [hpaused, hrunning, hkeys, Nat.not_lt.mpr hbackoff]

theorem sound_fresh {stored : Option VaultSyncState}
    (hstored : ∀ record ∈ stored, fits manifestAt record = true) :
    Sound manifestAt (.fresh stored) := by
  refine ⟨?_, nofun, nofun⟩
  cases stored with
  | none => rfl
  | some record => exact hstored record rfl

/-- Sides that differ do not both have the base version. -/
theorem changed_of_differs {path : String}
    (hdiffers : version view.current[path]? ≠ version view.server.manifest[path]?) :
    d.Changed view path := by
  unfold Driver.Changed
  by_contra hsame
  rw [not_or, not_not, not_not] at hsame
  exact hdiffers (hsame.1.trans hsame.2.symm)

/-- In every run, a poll that is called while nothing but a pending plan keeps it
from its work plans a path that changed, unless a plan is pending: if nothing
throws on its way, the path is not ignored and the two sides do not agree. -/
theorem polled_lists_iff {stored : Option VaultSyncState} {d turn : Driver}
    (hstored : ∀ record ∈ stored, fits manifestAt record = true)
    (hreach : Reachable manifestAt ignore (.fresh stored) d) (hidle : d.Idle)
    (hturn : ∀ queued, d.poll = some queued →
      Reachable manifestAt ignore queued turn ∧ turn.work = some .checking)
    {input : Driver.PollInput} (hserver : input.view.server.fits manifestAt = true)
    (path : String) :
    (∃ plan, d.polled ignore turn input = some plan ∧ Lists plan path) ↔
      d.pending = none ∧ turn.Clear input ∧ ignore.isIgnored path = false ∧
        turn.Changed input.view path ∧
          version input.view.current[path]? ≠ version input.view.server.manifest[path]? := by
  have hsound : Sound manifestAt d := (sound_fresh hstored).reachable hreach
  unfold Driver.polled
  cases hpoll : d.poll with
  | none =>
      have hpending : d.pending ≠ none := by
        intro hnone
        have hsome := (poll_isSome_iff hidle).mpr hnone
        rw [hpoll] at hsome
        cases hsome
      refine ⟨nofun, fun ⟨hnone, _⟩ => absurd hnone hpending⟩
  | some queued =>
      have hpending : d.pending = none := (poll_isSome_iff hidle).mp (hpoll ▸ rfl)
      obtain ⟨hwaits, hchecking⟩ := hturn queued hpoll
      have hqueued : Sound manifestAt queued := by
        unfold Driver.poll at hpoll
        split at hpoll
        · cases hpoll
        · split at hpoll
          · cases hpoll
          · obtain rfl := Option.some.inj hpoll
            exact hsound.same rfl rfl rfl
      have hsturn : Sound manifestAt turn := hqueued.reachable hwaits
      have hschecked : Sound manifestAt (turn.check ignore input.view input.checkFails) :=
        hsturn.check hserver
      simp only [Option.bind_some, Driver.step, hchecking, check_work]
      constructor
      · rintro ⟨plan, hplan, hlists⟩
        split at hplan
        next hlook =>
          obtain ⟨⟨-, hcycle⟩, rfl⟩ := (pollCycle_plan hschecked hserver).mp hplan
          obtain ⟨hseen, hdiffers⟩ := (foundDiff_lists _ _).mp hlists
          obtain ⟨hkeys, hcheck⟩ :=
            (lookForChanges_iff _ hseen hdiffers hsturn.stored hserver).mp hlook
          exact ⟨hpending, ⟨hkeys, hcheck, hcycle⟩, hseen, changed_of_differs hdiffers, hdiffers⟩
        next => cases hplan
      · rintro ⟨-, ⟨hkeys, hcheck, hcycle⟩, hseen, -, hdiffers⟩
        have hlook :=
          (lookForChanges_iff input.checkFails hseen hdiffers hsturn.stored hserver).mpr
            ⟨hkeys, hcheck⟩
        rw [if_pos hlook]
        refine ⟨_, (pollCycle_plan hschecked hserver).mpr ⟨⟨?_, hcycle⟩, rfl⟩,
          (foundDiff_lists _ _).mpr ⟨hseen, hdiffers⟩⟩
        rw [check_keys hsturn hserver, hkeys]

/-- Neither a manual sync nor an answer of the user. -/
def Driver.Event.unattended : Driver.Event → Bool
  | .syncVault | .resolveConflict _ => false
  | _ => true

/-- A pending plan that nobody works on. -/
structure Driver.Held (pending : Pending) (d : Driver) : Prop where
  pending : d.pending = some pending
  queue : d.queue = []
  work : d.work = none

theorem Driver.Held.step {pending : Pending} {event : Driver.Event} {after : Driver}
    (hheld : d.Held pending) (hunattended : event.unattended = true)
    (hstep : d.step ignore event = some after) : after.Held pending := by
  obtain ⟨hpending, hqueue, hwork⟩ := hheld
  cases event with
  | wait | setKeys | startDriver | saveSyncState =>
      obtain rfl := Option.some.inj hstep
      exact ⟨hpending, hqueue, hwork⟩
  | setPaused value =>
      obtain rfl := Option.some.inj hstep
      unfold Driver.setPaused
      split
      · exact ⟨hpending, hqueue, hwork⟩
      · dsimp only
        split <;> exact ⟨hpending, hqueue, hwork⟩
  | timer =>
      simp only [Driver.step, Driver.fire] at hstep
      split at hstep
      next => cases hstep
      next =>
        split at hstep
        next => cases hstep
        next =>
          have hpoll : Driver.poll { d with timer := none } = none := by
            simp [Driver.poll, hpending]
          rw [hpoll] at hstep
          obtain rfl := Option.some.inj hstep
          exact ⟨hpending, hqueue, hwork⟩
  | syncVault | resolveConflict => cases hunattended
  | start =>
      simp only [Driver.step, Driver.start, hwork, hqueue] at hstep
      cases hstep
  | check view fails =>
      simp only [Driver.step, hwork] at hstep
      cases hstep
  | finish view fails transfers =>
      simp only [Driver.step, Driver.finish, hwork] at hstep
      cases hstep

/-- Once a plan is pending, no poll does anything until the user syncs or answers. -/
theorem Driver.Held.stays {pending : Pending} {later : Driver} (hheld : d.Held pending)
    (hreach : Runs.Reaches (Driver.step ignore) (fun _ event => event.unattended = true) d later) :
    later.Held pending :=
  hreach.invariant hheld fun _ _ _ hheld hunattended hstep => hheld.step hunattended hstep

/-! ## Runs -/

theorem runs_reach {first last : Driver} {events : List Driver.Event}
    (hrun : Runs.run (Driver.step ignore) (fun _ event => truthful manifestAt event) first events =
      some last) : Reachable manifestAt ignore first last :=
  Runs.Reaches.run (fun _ _ htruthful => htruthful) .start hrun

/-- A folder with one note, and a server without any. -/
def oneNote : View where
  current := (∅ : Manifest).insert "note.md" { hash := "h" }
  hashes := none
  server := ⟨some "\"1\"", ∅, by simp⟩

/-- A driver starts, and its timer is due. -/
def firstPoll : List Driver.Event := [.setKeys true, .startDriver, .wait pollActiveMs]

theorem first_poll_lists_note :
    ∃ d queued turn : Driver, d.poll = some queued ∧ turn.work = some .checking ∧
      ∃ plan, d.polled ⟨[]⟩ turn { view := oneNote, transfers := { refetched := oneNote.server } } =
        some plan ∧ Lists plan "note.md" := by
  have hrun :
    ((Runs.run (Driver.step ⟨[]⟩) (fun _ event => truthful (fun _ => ∅) event) (.fresh none)
      firstPoll).any fun d => decide d.Idle && d.pending.isNone && d.poll.any fun queued =>
        (queued.step ⟨[]⟩ .start).any fun turn => decide (turn.work = some .checking) &&
          decide (turn.Clear { view := oneNote, transfers := { refetched := oneNote.server } })) =
      true := by
    decide +kernel
  obtain ⟨d, hd, hfacts⟩ := (Option.any_eq_true _ _).mp hrun
  simp only [Bool.and_eq_true, decide_eq_true_eq, Option.isNone_iff_eq_none] at hfacts
  obtain ⟨⟨hidle, hpending⟩, hpoll⟩ := hfacts
  obtain ⟨queued, hqueued, hstart⟩ := (Option.any_eq_true _ _).mp hpoll
  obtain ⟨turn, hturn, hlast⟩ := (Option.any_eq_true _ _).mp hstart
  simp only [Bool.and_eq_true, decide_eq_true_eq] at hlast
  refine ⟨d, queued, turn, hqueued, hlast.1, ?_⟩
  refine (@polled_lists_iff (fun _ => ∅) ⟨[]⟩ none d turn nofun (runs_reach hd) hidle ?_ _
    (by decide +kernel) "note.md").mpr ⟨hpending, hlast.2, by decide +kernel, ?_⟩
  · intro other hother
    obtain rfl := Option.some.inj (hqueued.symm.trans hother)
    exact ⟨@Runs.Reaches.step _ _ _ _ _ _ _ .start .start rfl hturn, hlast.1⟩
  · exact ⟨changed_of_differs (by decide +kernel), by decide +kernel⟩

/-- Folder and server differ on one note, and the folder has another. -/
def twoNotes : View where
  current := ((∅ : Manifest).insert "a.md" { hash := "mine" }).insert "b.md" { hash := "new" }
  hashes := none
  server := ⟨some "\"1\"", (∅ : Manifest).insert "a.md" { hash := "theirs" }, by simp⟩

/-- A manual sync stops on the conflict before it uploads anything. -/
def stoppedSync : List Driver.Event :=
  [.setKeys true, .startDriver, .syncVault, .start,
    .finish twoNotes [] { refetched := twoNotes.server }, .wait pollActiveMs]

theorem stopped_sync_holds_up_others :
    ¬∀ (manifestAt : String → Manifest) (ignore : IgnoreRules) (stored : Option VaultSyncState)
      (d turn : Driver) (input : Driver.PollInput) (path : String),
      (∀ record ∈ stored, fits manifestAt record = true) →
      Reachable manifestAt ignore (.fresh stored) d → d.Idle →
      (∀ queued, d.poll = some queued →
        Reachable manifestAt ignore queued turn ∧ turn.work = some .checking) →
      input.view.server.fits manifestAt = true → turn.Clear input → ignore.isIgnored path = false →
      (∀ pending, d.pending = some pending → path ∉ pending.plan.conflicts.map Conflict.path) →
      turn.Changed input.view path →
      version input.view.current[path]? ≠ version input.view.server.manifest[path]? →
      ∃ plan, d.polled ignore turn input = some plan ∧ Lists plan path := by
  intro hall
  have hrun : ((Runs.run (Driver.step ⟨[]⟩)
      (fun _ event => truthful (fun _ => twoNotes.server.manifest) event) (.fresh none)
      stoppedSync).any fun d => decide d.Idle && d.poll.isNone &&
        decide (d.Clear { view := twoNotes, transfers := { refetched := twoNotes.server } }) &&
          d.pending.all fun pending =>
            "b.md" ∉ pending.plan.conflicts.map Conflict.path) = true := by
    decide +kernel
  obtain ⟨d, hd, hfacts⟩ := (Option.any_eq_true _ _).mp hrun
  simp only [Bool.and_eq_true, decide_eq_true_eq, Option.isNone_iff_eq_none] at hfacts
  obtain ⟨⟨⟨hidle, hpoll⟩, hclear⟩, hothers⟩ := hfacts
  obtain ⟨plan, hplan, -⟩ := hall (fun _ => twoNotes.server.manifest) ⟨[]⟩ none d d
    { view := twoNotes, transfers := { refetched := twoNotes.server } } "b.md" nofun (runs_reach hd)
    hidle (by simp [hpoll]) (by decide +kernel) hclear (by decide +kernel)
    (by intro pending hpending; simpa [hpending] using hothers)
    (changed_of_differs (by decide +kernel)) (by decide +kernel)
  simp [Driver.polled, hpoll] at hplan

end ObSink.Web.Polls
