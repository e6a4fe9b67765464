import ObSink.Engine.HashCache
import ObSink.Engine.Rounds
import ObSink.Lib.Lockstep

/-! # A folder that was synced with another vault

The bookkeeping of a folder is a checkpoint, a copy of the server manifest with
its entity tag, and a memo of content hashes. Neither creating nor downloading a
vault nor pointing it at another folder clears it, and only the memo is bound to
a vault. Here the first cycle of a vault in a folder with the bookkeeping of
another one runs beside the same cycle in the same folder without any.
-/

namespace ObSink.Engine

open Prog (Lockstep Within perform exec)

/-- The content of `.obsink`. -/
structure Bookkeeping where
  base : Manifest := ∅
  cache : Option RemoteManifestCache := none
  hashes : Option HashCache := none

/-- A folder with this bookkeeping, and a vault on a server. -/
def Bookkeeping.world (bookkeeping : Bookkeeping) (folder : Folder)
    (server : Server.State) : World :=
  ⟨⟨folder, bookkeeping.base, bookkeeping.cache⟩, server⟩

/-- `prepareSync` with the walk that looks into the memo first. -/
def prepareSyncWith (crypto : Crypto) (ignore : IgnoreRules) (nanos : String → Nat)
    (hashes : Option HashCache) : Eff (Except SyncEngineError SyncPlan) := do
  match ← perform Effect.loadLocalState with
  | .error error => pure (.error error)
  | .ok (base, folder, now) =>
      let walk := buildManifestWithCache crypto ignore nanos (.load crypto hashes) folder
      let working := addTombstones now walk base
      match ← fetchRemoteManifest crypto with
      | .error error => pure (.error error)
      | .ok remote => do
          let diff := diffLocalAndRemote base working remote ignore
          let failures ← applyDownloads crypto diff.download
          return .ok { upload := diff.upload, download := diff.download,
                       conflicts := diff.conflicts, failures }

/-! ## Others in between -/

/-- What happens besides the cycle before one of its operations: edits of the
folder, and requests of other devices. -/
structure Others where
  edit : Folder → Folder := id
  calls : List Server.Call := []

def Others.act (context : Context) (others : Others) (world : World) : World where
  device := { world.device with folder := others.edit world.device.folder }
  server := Server.settled context.server world.server others.calls

/-- One operation, after what others have done. -/
def handleAmid (context : Context) (turn : Env × Others) (effect : Effect) (world : World) :
    effect.Reply × World :=
  handle context turn.1 effect (turn.2.act context world)

/-- The checkpoint of a cycle was written. -/
def SyncResult.Checkpointed (result : SyncResult) : Prop :=
  result.failures.any SyncFailure.fatal = false ∧ result.checkpointError = none

/-- The first cycle for a vault makes the same plan with the leftover
bookkeeping as with none, and completing it writes the same checkpoint. -/
def Unaffected (context : Context) (nanos : String → Nat) (folder : Folder) (server : Server.State)
    (leftover : Bookkeeping) : Prop :=
  ∀ envs,
    let prepared := fun bookkeeping : Bookkeeping =>
      exec (handle context)
        (prepareSyncWith context.crypto context.ignore nanos bookkeeping.hashes) envs
        (bookkeeping.world folder server)
    (prepared leftover).1.result? = (prepared {}).1.result? ∧
      ∀ plan, (prepared leftover).1.result? = some (.ok plan) → ∀ resolutions turns,
        let completed := fun bookkeeping =>
          exec (handleAmid context) (completeSync context.crypto plan resolutions) turns
            (prepared bookkeeping).2
        (completed leftover).1.result? = (completed {}).1.result? ∧
          ∀ result, (completed leftover).1.result? = some (.ok result) →
            SyncResult.Checkpointed result →
              (completed leftover).2.device.base = (completed {}).2.device.base

/-! ## When the leftovers do no harm -/

/-- No revision from this one on has the entity tag of the leftover copy. -/
def Outdated (cache : Option RemoteManifestCache) (revision : Nat) : Prop :=
  ∀ copy etag, cache = some copy → copy.etag = some etag → ∀ later, revision ≤ later →
    Server.ifNoneMatchHits (some etag) (Server.etagOf later) = false

/-- The leftover checkpoint says nothing of a path the cycle has to do with: one
the folder and the vault disagree on, or the copy of one both have. -/
structure Silent (ignore : IgnoreRules) (base walk remote : Manifest) : Prop where
  paths : ∀ path, ignore.isIgnored path = false → version walk[path]? ≠ version remote[path]? →
    base[path]? = none
  copies : ∀ path ours theirs, ignore.isIgnored path = false → walk[path]? = some ours →
    remote[path]? = some theirs → ours.deleted = false → theirs.deleted = false →
      ours.hash ≠ theirs.hash → base[conflictCopyPath path]? = none

structure Harmless (context : Context) (nanos : String → Nat) (folder : Folder)
    (server : Server.State) (leftover : Bookkeeping) : Prop where
  outdated : Outdated leftover.cache server.vault.revision
  truthful : ∀ item ∈ folder.toList,
    (HashCache.load context.crypto leftover.hashes).TrueOf context.crypto nanos item
  silent : ∀ remote, decodeManifest context.crypto server.vault.files = .ok remote →
    Silent context.ignore leftover.base
      (buildManifestWithCache context.crypto context.ignore nanos (.empty context.crypto) folder)
      remote

/-! ## Side by side -/

/-- The same folder and server, with the leftover bookkeeping and without. The
copies of the server manifest are the same once one was saved. -/
structure Beside (leftover : Bookkeeping) (since : Nat) (first second : World) : Prop where
  folder : first.device.folder = second.device.folder
  server : first.server = second.server
  base : first.device.base = leftover.base
  noBase : second.device.base = ∅
  cache : first.device.cache = second.device.cache ∨
    first.device.cache = leftover.cache ∧ second.device.cache = none
  revision : since ≤ first.server.vault.revision

/-- An operation that is no bookkeeping does the same in both. -/
theorem handle_blind_congr (context : Context) (env : Env) {effect : Effect} (hblind : effect.Blind)
    {first second : World} (hfolder : first.device.folder = second.device.folder)
    (hserver : first.server = second.server) :
    (handle context env effect first).1 = (handle context env effect second).1 ∧
      (handle context env effect first).2.device.folder =
        (handle context env effect second).2.device.folder ∧
      (handle context env effect first).2.server = (handle context env effect second).2.server := by
  obtain ⟨⟨folder, base, cache⟩, server⟩ := first
  obtain ⟨⟨folder', base', cache'⟩, server'⟩ := second
  obtain rfl : folder = folder' := hfolder
  obtain rfl : server = server' := hserver
  have hchange : ∀ (edit : Folder → Folder) (entries entries' : Manifest)
      (copy copy' : Option RemoteManifestCache),
      (env.change ⟨⟨folder, entries, copy⟩, server⟩ ⟨edit folder, entries, copy⟩).1 =
          (env.change ⟨⟨folder, entries', copy'⟩, server⟩ ⟨edit folder, entries', copy'⟩).1 ∧
        (env.change ⟨⟨folder, entries, copy⟩, server⟩
          ⟨edit folder, entries, copy⟩).2.device.folder =
          (env.change ⟨⟨folder, entries', copy'⟩, server⟩
            ⟨edit folder, entries', copy'⟩).2.device.folder ∧
        (env.change ⟨⟨folder, entries, copy⟩, server⟩ ⟨edit folder, entries, copy⟩).2.server =
          (env.change ⟨⟨folder, entries', copy'⟩, server⟩
            ⟨edit folder, entries', copy'⟩).2.server := by
    intro edit entries entries' copy copy'
    unfold Env.change
    cases env.onDevice () with
    | ok value => exact ⟨rfl, rfl, rfl⟩
    | error error => exact ⟨rfl, rfl, rfl⟩
  cases effect with
  | loadLocalState => exact hblind.elim
  | loadRemoteCache => exact hblind.elim
  | saveRemoteCache cache => exact hblind.elim
  | loadBase => exact hblind.elim
  | saveBase manifest => exact hblind.elim
  | deleteLocalFile path =>
      simp only [handle]
      cases folder[path]? with
      | none => exact ⟨rfl, rfl, rfl⟩
      | some file => exact hchange (·.erase path) base base' cache cache'
  | writeFile path content =>
      exact hchange (·.insert path ⟨content, env.now⟩) base base' cache cache'
  | statFile path =>
      simp only [handle]
      cases folder[path]? <;> exact ⟨rfl, rfl, rfl⟩
  | sealFile path =>
      simp only [handle]
      cases folder[path]? <;> exact ⟨rfl, rfl, rfl⟩
  | _ => exact ⟨rfl, rfl, rfl⟩

/-- A request of anyone leaves the revision where it is or raises it. -/
theorem revision_le_serve (config : Server.Config) (call : Server.Call) (state : Server.State) :
    state.vault.revision ≤ (call.serve config state).2.vault.revision := by
  rcases Server.serve_vault config call state with ⟨entry, _, hvault⟩ | ⟨_, hvault⟩
  · rw [hvault]
    exact Nat.le_succ _
  · rw [hvault]

theorem revision_le_settled (config : Server.Config) (calls : List Server.Call)
    (state : Server.State) :
    state.vault.revision ≤ (Server.settled config state calls).vault.revision := by
  induction calls generalizing state with
  | nil => exact Nat.le_refl _
  | cons call rest ih =>
      calc state.vault.revision
        _ ≤ (call.serve config state).2.vault.revision := revision_le_serve config call state
        _ ≤ _ := ih (call.serve config state).2

theorem revision_le_handle (context : Context) (env : Env) (effect : Effect) (world : World) :
    world.server.vault.revision ≤ (handle context env effect world).2.server.vault.revision := by
  by_cases hop : ∃ op, effect = .applyOp op
  · obtain ⟨op, rfl⟩ := hop
    exact revision_le_serve context.server (callOf context env op) world.server
  · rw [handle_server context env (fun op heq => hop ⟨op, heq⟩) world]

section Beside

variable {context : Context} {leftover : Bookkeeping} {since : Nat} {first second : World}

theorem Beside.act (hbeside : Beside leftover since first second) (others : Others) :
    Beside leftover since (others.act context first) (others.act context second) where
  folder := congrArg others.edit hbeside.folder
  server := by simp only [Others.act, hbeside.server]
  base := hbeside.base
  noBase := hbeside.noBase
  cache := hbeside.cache
  revision := hbeside.revision.trans (revision_le_settled _ _ _)

theorem Beside.blind (hbeside : Beside leftover since first second) (env : Env) {effect : Effect}
    (hblind : effect.Blind) :
    (handle context env effect first).1 = (handle context env effect second).1 ∧
      Beside leftover since (handle context env effect first).2
        (handle context env effect second).2 := by
  obtain ⟨hreply, hfolder, hserver⟩ :=
    handle_blind_congr context env hblind hbeside.folder hbeside.server
  obtain ⟨hbase, hcache⟩ := handle_blind context env hblind first
  obtain ⟨hbase', hcache'⟩ := handle_blind context env hblind second
  refine ⟨hreply, hfolder, hserver, hbase.trans hbeside.base, hbase'.trans hbeside.noBase, ?_,
    hbeside.revision.trans (revision_le_handle _ _ _ _)⟩
  rw [hcache, hcache']
  exact hbeside.cache

end Beside

/-- Each turn is one operation on two worlds side by side, whatever happens
before it; `seen` is what stays true of the server until an operation of the
cycle changes it. -/
def Turns (context : Context) (leftover : Bookkeeping) (since : Nat) (seen : Server.State → Prop)
    {Turn : Type} (turned : Turn → (effect : Effect) → World → effect.Reply × World) : Prop :=
  ∀ turn first second, Beside leftover since first second → ∃ env first' second',
    Beside leftover since first' second' ∧ (seen first.server → seen first'.server) ∧
      second'.device.cache = second.device.cache ∧ ∀ effect,
        turned turn effect first = handle context env effect first' ∧
          turned turn effect second = handle context env effect second'

section Turns

variable {context : Context} {leftover : Bookkeeping} {since : Nat} {seen : Server.State → Prop}
variable {Turn : Type} {turned : Turn → (effect : Effect) → World → effect.Reply × World}
variable {first second : World}

theorem turns_handle : Turns context leftover since seen (handle context) :=
  fun env first second hbeside =>
    ⟨env, first, second, hbeside, id, rfl, fun _ => ⟨rfl, rfl⟩⟩

theorem turns_handleAmid : Turns context leftover since (fun _ => True) (handleAmid context) :=
  fun turn _ _ hbeside =>
    ⟨turn.1, _, _, hbeside.act turn.2, id, rfl, fun _ => ⟨rfl, rfl⟩⟩

/-- What does not look at the bookkeeping goes the same way. -/
theorem Turns.lockstep_blind (hturns : Turns context leftover since seen turned) {α : Type}
    {prog : Eff α} {result : α → Prop} (hwithin : Within Effect.Blind result prog)
    (hbeside : Beside leftover since first second) :
    Lockstep turned (fun value after value' after' =>
        value = value' ∧ result value ∧ Beside leftover since after after')
      prog first prog second := by
  apply hwithin.lockstep _ hbeside
  intro turn effect world world' hblind hrelated
  obtain ⟨env, world, world', hrelated, _, _, hhandle⟩ := hturns turn world world' hrelated
  rw [(hhandle effect).1, (hhandle effect).2]
  exact hrelated.blind env hblind

/-- A tag that hits no revision from here on gets the answer no tag gets. -/
theorem getManifest_untagged {vault : Server.Vault} {tag : Option String}
    (hmiss : Server.ifNoneMatchHits tag (Server.etagOf vault.revision) = false) (userId : String) :
    Server.getManifest vault userId tag = Server.getManifest vault userId none := by
  unfold Server.getManifest
  split
  next => rfl
  next =>
    simp only [hmiss]
    rfl

/-- The two tags are the same, or the first is outdated and there is no second. -/
def TagsFit (since : Nat) (tag tag' : Option String) : Prop :=
  tag = tag' ∨ tag' = none ∧ ∀ later, since ≤ later →
    Server.ifNoneMatchHits tag (Server.etagOf later) = false

theorem Turns.lockstep_getManifestIfChanged (hturns : Turns context leftover since seen turned)
    {tag tag' : Option String} (htags : TagsFit since tag tag')
    (hbeside : Beside leftover since first second) (hseen : seen first.server) :
    Lockstep turned (fun answer after answer' after' =>
      answer = answer' ∧ Beside leftover since after after' ∧
        after'.device.cache = second.device.cache ∧
        (answer = .ok .notModified → tag = tag' ∧ tag'.isSome = true) ∧
        ∀ manifest etag, answer = .ok (.modified manifest etag) →
          ∃ server, seen server ∧ decodeManifest context.crypto server.vault.files = .ok manifest)
      (getManifestIfChanged context.crypto tag) first (getManifestIfChanged context.crypto tag')
      second := by
  have hask : Lockstep turned (fun answer after answer' after' =>
      answer = answer' ∧ Beside leftover since after after' ∧
        after'.device.cache = second.device.cache ∧
        (answer = .ok .notModified → tag = tag' ∧ tag'.isSome = true) ∧
        ∀ rows etag, answer = .ok (.rows rows etag) →
          ∃ server, seen server ∧ server.vault.files = rows)
      (perform (Effect.getManifest tag)) first (perform (Effect.getManifest tag')) second := by
    intro turn
    obtain ⟨env, world, world', hrelated, hkeeps, hcache, hhandle⟩ :=
      hturns turn first second hbeside
    rw [(hhandle _).1, (hhandle _).2]
    simp only [handle]
    have hanswer : Server.getManifest world.server.vault context.userId tag =
        Server.getManifest world'.server.vault context.userId tag' := by
      rcases htags with rfl | ⟨rfl, hmiss⟩
      · rw [hrelated.server]
      · rw [getManifest_untagged (hmiss _ hrelated.revision), hrelated.server]
    rw [hanswer]
    rcases manifest_answers env world'.server.vault context.userId tag' with
      ⟨error, herror⟩ | ⟨hhit, hnot⟩ | hfound
    · rw [herror]
      exact ⟨rfl, hrelated, hcache, by simp, by simp⟩
    · rw [hnot]
      refine ⟨rfl, hrelated, hcache, fun _ => ?_, by simp⟩
      rcases htags with rfl | ⟨rfl, _⟩
      · cases tag with
        | none => cases hhit
        | some value => exact ⟨rfl, rfl⟩
      · cases hhit
    · rw [hfound]
      refine ⟨rfl, hrelated, hcache, by simp, fun rows etag hrows => ?_⟩
      obtain ⟨rfl, _⟩ := Server.ManifestAnswer.rows.inj (Except.ok.inj hrows)
      exact ⟨world.server, hkeeps hseen, by rw [hrelated.server]⟩
  refine hask.bind ?_
  rintro answer after _ after' ⟨rfl, hafter, hcache, hnot, hrows⟩
  rcases answer with error | _ | ⟨rows, etag⟩
  · exact ⟨rfl, hafter, hcache, by simp, by simp⟩
  · exact ⟨rfl, hafter, hcache, fun _ => hnot rfl, by simp⟩
  · obtain ⟨server, hserver, rfl⟩ := hrows rows etag rfl
    simp only
    cases hdecode : decodeManifest context.crypto server.vault.files with
    | error error => exact ⟨rfl, hafter, hcache, by simp, by simp⟩
    | ok manifest =>
        refine ⟨rfl, hafter, hcache, by simp, fun found etag hfound => ?_⟩
        obtain ⟨rfl, _⟩ := ManifestFetch.modified.inj (Except.ok.inj hfound)
        exact ⟨server, hserver, hdecode⟩

/-- Saving a copy leaves both with it, or both with what they had. -/
theorem Turns.lockstep_save (hturns : Turns context leftover since seen turned)
    (copy : RemoteManifestCache) (hbeside : Beside leftover since first second) :
    Lockstep turned (fun _ after _ after' => Beside leftover since after after')
      (perform (Effect.saveRemoteCache copy)) first
        (perform (Effect.saveRemoteCache copy)) second := by
  intro turn
  obtain ⟨env, world, world', hrelated, _, _, hhandle⟩ := hturns turn first second hbeside
  rw [(hhandle _).1, (hhandle _).2]
  simp only [handle, Env.change]
  cases env.onDevice () with
  | error error => exact hrelated
  | ok value =>
      exact ⟨hrelated.folder, hrelated.server, hrelated.base, hrelated.noBase, Or.inl rfl,
        hrelated.revision⟩

theorem Turns.lockstep_load (hturns : Turns context leftover since seen turned)
    (hbeside : Beside leftover since first second) (hseen : seen first.server) :
    Lockstep turned (fun cached after cached' after' =>
      Beside leftover since after after' ∧ seen after.server ∧
        (cached = cached' ∨ cached = leftover.cache ∧ cached' = none) ∧
        (second.device.cache = none → cached' = none))
      (perform Effect.loadRemoteCache) first (perform Effect.loadRemoteCache) second := by
  intro turn
  obtain ⟨env, world, world', hrelated, hkeeps, hcache, hhandle⟩ := hturns turn first second hbeside
  rw [(hhandle _).1, (hhandle _).2]
  have hfound : ∀ world : World, handle context env Effect.loadRemoteCache world =
      ((env.onDevice world.device.cache).toOption.join, world) := by
    intro world
    simp only [handle]
    cases env.onDevice world.device.cache <;> rfl
  rw [hfound, hfound]
  refine ⟨hrelated, hkeeps hseen, ?_, ?_⟩
  · unfold Env.onDevice
    split
    next => exact Or.inl rfl
    next => exact hrelated.cache
  · intro hnone
    simp only [hcache, hnone, Env.onDevice]
    split <;> rfl

/-- The manifest of the server is fetched alike; without a copy of it, it is
decoded from the rows. -/
theorem Turns.lockstep_fetch (hturns : Turns context leftover since seen turned)
    (houtdated : Outdated leftover.cache since) (hbeside : Beside leftover since first second)
    (hseen : seen first.server) :
    Lockstep turned (fun answer after answer' after' =>
      answer = answer' ∧ Beside leftover since after after' ∧
        (second.device.cache = none → ∀ remote, answer = .ok remote →
          ∃ server, seen server ∧ decodeManifest context.crypto server.vault.files = .ok remote))
      (fetchRemoteManifest context.crypto) first (fetchRemoteManifest context.crypto) second := by
  refine (hturns.lockstep_load hbeside hseen).bind ?_
  rintro loaded after loaded' after' ⟨hbeside, hseen, hloaded, hnone⟩
  let tagged := fun cached : Option RemoteManifestCache => cached.filter fun cache =>
    cache.etag.isSome
  have htags : TagsFit since ((tagged loaded).bind RemoteManifestCache.etag)
      ((tagged loaded').bind RemoteManifestCache.etag) := by
    rcases hloaded with rfl | ⟨rfl, rfl⟩
    · exact Or.inl rfl
    · refine Or.inr ⟨rfl, fun later hlater => ?_⟩
      cases hcache : leftover.cache with
      | none => rfl
      | some copy =>
          cases hetag : copy.etag with
          | none => simp [tagged, Option.filter, hetag, Server.ifNoneMatchHits]
          | some etag =>
              simp only [tagged, Option.filter, hetag, Option.isSome_some, ↓reduceIte,
                Option.bind_some]
              exact houtdated copy etag hcache hetag later hlater
  refine (hturns.lockstep_getManifestIfChanged htags hbeside hseen).bind ?_
  rintro answer after _ after' ⟨rfl, hbeside, _, hnot, hmodified⟩
  rcases answer with error | ⟨manifest, etag⟩ | _
  · exact ⟨rfl, hbeside, by simp⟩
  · obtain ⟨server, hserver, hdecode⟩ := hmodified manifest etag rfl
    have hresult : second.device.cache = none → ∀ remote,
        (.ok manifest : Except SyncEngineError Manifest) = .ok remote →
          ∃ server,
            seen server ∧ decodeManifest context.crypto server.vault.files = .ok remote := by
      intro _ remote hremote
      obtain rfl := Except.ok.inj hremote
      exact ⟨server, hserver, hdecode⟩
    simp only
    split
    next =>
      refine (hturns.lockstep_save _ hbeside).bind ?_
      intro _ after _ after' hbeside
      exact ⟨rfl, hbeside, hresult⟩
    next => exact ⟨rfl, hbeside, hresult⟩
  · -- an answer of "not modified" is to a tag, and both have sent the same one
    obtain ⟨_, hsome⟩ := hnot rfl
    rcases hloaded with rfl | ⟨_, rfl⟩
    · simp only [tagged] at hsome
      cases hcached : loaded.filter fun cache => cache.etag.isSome with
      | none => simp [hcached] at hsome
      | some cache =>
          refine ⟨rfl, hbeside, fun hempty => ?_⟩
          rw [hnone hempty] at hcached
          cases hcached
    · cases hsome

end Turns

/-! ## The plan -/

section Plan

variable {ignore : IgnoreRules} {base walk remote : Manifest}

theorem addTombstones_empty (now : Nat) (walk : Manifest) : addTombstones now walk ∅ = walk := by
  ext1 path
  rw [addTombstones_getElem?]
  cases walk[path]? <;> simp

/-- A path is decided on as if the leftover checkpoint were empty. -/
theorem Silent.decisionAt (hsilent : Silent ignore base walk remote) (now : Nat) (path : String) :
    decisionAt (keep ignore base) (keep ignore (addTombstones now walk base)) (keep ignore remote)
        path =
      decisionAt (keep ignore ∅) (keep ignore (addTombstones now walk ∅)) (keep ignore remote)
        path := by
  simp only [ObSink.decisionAt, keep_getElem?, addTombstones_empty]
  cases hignored : ignore.isIgnored path with
  | true => rfl
  | false =>
      simp only [Bool.false_eq_true, ↓reduceIte]
      by_cases hagree : version walk[path]? = version remote[path]?
      · rw [decide3_eq, decide3_eq,
          if_pos ((version_addTombstones now walk base path).trans hagree), if_pos hagree]
      · rw [addTombstones_getElem?, hsilent.paths path hignored hagree]
        cases walk[path]? <;> rfl

theorem Silent.diff (hsilent : Silent ignore base walk remote) (now : Nat) :
    diffLocalAndRemote base (addTombstones now walk base) remote ignore =
      diffLocalAndRemote ∅ walk remote ignore := by
  have hsame := diffManifests_congr (hsilent.decisionAt now)
  rwa [addTombstones_empty] at hsame

/-- The leftover checkpoint says nothing of what a plan may hold back. -/
structure Untouched (base : Manifest) (plan : SyncPlan) : Prop where
  uploads : ∀ action ∈ plan.upload, base[action.path]? = none
  failures : ∀ failure ∈ plan.failures, base[failure.path]? = none
  conflicts : ∀ conflict ∈ plan.conflicts, base[conflict.path]? = none
  copies : ∀ conflict ∈ plan.conflicts, conflict.localEntry.deleted = false →
    conflict.remoteEntry.deleted = false → base[conflictCopyPath conflict.path]? = none

/-- A path there is something to do with is one the sides disagree on. -/
theorem Silent.of_planned (hsilent : Silent ignore base walk remote) {path : String}
    (hplanned : ObSink.decisionAt (keep ignore ∅) (keep ignore walk) (keep ignore remote) path ≠
      .nothing) :
    ignore.isIgnored path = false ∧ base[path]? = none := by
  simp only [ObSink.decisionAt, keep_getElem?, decide3_eq] at hplanned
  cases hignored : ignore.isIgnored path with
  | true => simp [hignored] at hplanned
  | false =>
      simp only [hignored, Bool.false_eq_true, ↓reduceIte] at hplanned
      refine ⟨rfl, hsilent.paths path hignored fun hagree => hplanned ?_⟩
      rw [if_pos hagree]

theorem Silent.untouched (hsilent : Silent ignore base walk remote) {failures : List SyncFailure}
    (habout : About (diffLocalAndRemote ∅ walk remote ignore).download failures) :
    Untouched base
      { upload := (diffLocalAndRemote ∅ walk remote ignore).upload
        download := (diffLocalAndRemote ∅ walk remote ignore).download
        conflicts := (diffLocalAndRemote ∅ walk remote ignore).conflicts
        failures } where
  uploads := by
    intro action hmem
    refine (hsilent.of_planned ?_).2
    rw [mem_diff_upload.mp hmem]
    simp
  failures := by
    intro failure hmem
    obtain ⟨action, haction, hpath⟩ := List.mem_map.mp (habout failure hmem)
    rw [← hpath]
    refine (hsilent.of_planned ?_).2
    rw [mem_diff_download.mp haction]
    simp
  conflicts := by
    intro conflict hmem
    refine (hsilent.of_planned ?_).2
    rw [mem_diff_conflicts.mp hmem]
    simp
  copies := by
    intro conflict hmem _ _
    have hdecision := mem_diff_conflicts.mp hmem
    have hplanned : ObSink.decisionAt (keep ignore ∅) (keep ignore walk) (keep ignore remote)
        conflict.path ≠ .nothing := by
      rw [hdecision]
      simp
    obtain ⟨hkept, _⟩ := hsilent.of_planned hplanned
    simp only [ObSink.decisionAt, keep_getElem?, hkept, Bool.false_eq_true, ↓reduceIte,
      decide3_eq] at hdecision
    -- a conflict with an empty base has both sides, and they differ
    split at hdecision
    next => cases hdecision
    next hdiffer =>
      split at hdecision
      next => cases hdecision
      next hlocal =>
        split at hdecision
        next => cases hdecision
        next hremote =>
          cases hwalk : walk[conflict.path]? with
          | none => simp [hwalk] at hlocal
          | some ours =>
              cases hfetched : remote[conflict.path]? with
              | none => simp [hfetched] at hremote
              | some theirs =>
                  have hlive : ours.deleted = false := by
                    simpa [hwalk, version] using hlocal
                  have hlive' : theirs.deleted = false := by
                    simpa [hfetched, version] using hremote
                  refine hsilent.copies conflict.path ours theirs hkept hwalk hfetched
                    hlive hlive' ?_
                  intro hhash
                  simp [hwalk, hfetched, version, hlive, hlive', hhash] at hdiffer

end Plan

section Cycle

variable {context : Context} {nanos : String → Nat} {folder : Folder} {server : Server.State}
variable {leftover : Bookkeeping}

theorem beside_start (leftover : Bookkeeping) (folder : Folder) (server : Server.State) :
    Beside leftover server.vault.revision (leftover.world folder server)
      (({} : Bookkeeping).world folder server) :=
  ⟨rfl, rfl, rfl, rfl, Or.inr ⟨rfl, rfl⟩, Nat.le_refl _⟩

/-- Both make the same plan. -/
theorem Harmless.lockstep_prepare (hharmless : Harmless context nanos folder server leftover) :
    Lockstep (handle context) (fun result after result' after' =>
      result = result' ∧ Beside leftover server.vault.revision after after' ∧
        ∀ plan, result = .ok plan → Untouched leftover.base plan)
      (prepareSyncWith context.crypto context.ignore nanos leftover.hashes)
      (leftover.world folder server)
      (prepareSyncWith context.crypto context.ignore nanos none)
      (({} : Bookkeeping).world folder server) := by
  have hload : Lockstep (handle context) (fun state after state' after' =>
      after = leftover.world folder server ∧ after' = ({} : Bookkeeping).world folder server ∧
        ((∃ error, state = .error error ∧ state' = .error error) ∨
          ∃ now, state = .ok (leftover.base, folder, now) ∧ state' = .ok (∅, folder, now)))
      (perform Effect.loadLocalState) (leftover.world folder server)
      (perform Effect.loadLocalState) (({} : Bookkeeping).world folder server) := by
    intro env
    refine ⟨rfl, rfl, ?_⟩
    simp only [handle, Env.onDevice]
    split
    next error _ => exact Or.inl ⟨error, rfl, rfl⟩
    next => exact Or.inr ⟨env.now, rfl, rfl⟩
  refine hload.bind ?_
  rintro state _ state' _ ⟨rfl, rfl, ⟨error, rfl, rfl⟩ | ⟨now, rfl, rfl⟩⟩
  · exact ⟨rfl, beside_start leftover folder server, by simp⟩
  have hturns : Turns context leftover server.vault.revision (· = server) (handle context) :=
    turns_handle
  refine (hturns.lockstep_fetch hharmless.outdated (beside_start leftover folder server) rfl).bind
    ?_
  rintro answer after _ after' ⟨rfl, hbeside, hdecoded⟩
  cases answer with
  | error error => exact ⟨rfl, hbeside, by simp⟩
  | ok remote =>
      obtain ⟨_, rfl, hdecode⟩ := hdecoded rfl remote rfl
      have hsilent := hharmless.silent remote hdecode
      simp only [buildManifestWithCache_of_true hharmless.truthful, HashCache.load_none,
        hsilent.diff now, addTombstones_empty]
      refine (hturns.lockstep_blind ((applyDownloads_downloads context.crypto _).weaken
        fun _ hdownloads => hdownloads.blind) hbeside).bind ?_
      rintro failures after _ after' ⟨rfl, habout, hbeside⟩
      refine ⟨rfl, hbeside, fun plan hplan => ?_⟩
      obtain rfl := Except.ok.inj hplan
      exact hsilent.untouched habout

variable {Turn : Type} {turned : Turn → (effect : Effect) → World → effect.Reply × World}
variable {since : Nat} {first second : World}

/-- Both write the same checkpoint, when the leftover one says nothing of what
is held back. -/
theorem Turns.lockstep_checkpoint
    (hturns : Turns context leftover since (fun _ => True) turned)
    (houtdated : Outdated leftover.cache since) (hbeside : Beside leftover since first second)
    {holdBack : List String} (hheld : ∀ path ∈ holdBack, leftover.base[path]? = none) :
    Lockstep turned (fun result after result' after' =>
      result = result' ∧ (result = .ok () → after.device.base = after'.device.base))
      (checkpoint context.crypto holdBack) first (checkpoint context.crypto holdBack) second := by
  refine (hturns.lockstep_fetch houtdated hbeside trivial).bind ?_
  rintro answer after _ after' ⟨rfl, hbeside, _⟩
  cases answer with
  | error error => exact ⟨rfl, by simp⟩
  | ok remote =>
      have hload : Lockstep turned (fun loaded after loaded' after' =>
          Beside leftover since after after' ∧
            ((∃ error, loaded = .error error ∧ loaded' = .error error) ∨
              loaded = .ok leftover.base ∧ loaded' = .ok ∅))
          (perform Effect.loadBase) after (perform Effect.loadBase) after' := by
        intro turn
        obtain ⟨env, world, world', hrelated, _, _, hhandle⟩ := hturns turn after after' hbeside
        rw [(hhandle _).1, (hhandle _).2]
        refine ⟨hrelated, ?_⟩
        simp only [handle, Env.onDevice, hrelated.base, hrelated.noBase]
        split
        next error _ => exact Or.inl ⟨error, rfl, rfl⟩
        next => exact Or.inr ⟨rfl, rfl⟩
      refine hload.bind ?_
      rintro loaded after loaded' after' ⟨hbeside, ⟨error, rfl, rfl⟩ | ⟨rfl, rfl⟩⟩
      · exact ⟨rfl, by simp⟩
      · have hsame : checkpointManifest leftover.base remote holdBack =
            checkpointManifest ∅ remote holdBack := by
          apply checkpointManifest_congr
          intro path hpath
          rw [hheld path hpath]
          exact Std.ExtTreeMap.getElem?_empty.symm
        intro turn
        obtain ⟨env, world, world', hrelated, _, _, hhandle⟩ := hturns turn after after' hbeside
        rw [(hhandle _).1, (hhandle _).2]
        simp only [handle, Env.change]
        cases env.onDevice () with
        | error error => exact ⟨rfl, by simp⟩
        | ok value => exact ⟨rfl, fun _ => hsame⟩

/-- Completing a plan that the leftover checkpoint does not touch. -/
theorem Turns.lockstep_complete
    (hturns : Turns context leftover since (fun _ => True) turned)
    (houtdated : Outdated leftover.cache since) {plan : SyncPlan}
    (huntouched : Untouched leftover.base plan) (resolutions : List ConflictResolution)
    (hbeside : Beside leftover since first second) :
    Lockstep turned (fun result after result' after' =>
      result = result' ∧ ∀ done, result = .ok done → SyncResult.Checkpointed done →
        after.device.base = after'.device.base)
      (completeSync context.crypto plan resolutions) first
      (completeSync context.crypto plan resolutions) second := by
  refine (hturns.lockstep_blind (applyResolutions_blind context.crypto resolutions plan.conflicts
    ⟨plan.upload, []⟩) hbeside).bind ?_
  rintro answer after _ after' ⟨rfl, hadds, hbeside⟩
  cases answer with
  | error error => exact ⟨rfl, by simp⟩
  | ok resolved =>
      have hadds := hadds resolved rfl
      have hblind := (runUploads_after resolved.uploads (plan.failures.map SyncFailure.path ++
        resolved.deferred.map Conflict.path)).weaken fun _ hseals => hseals.uploads.blind
      refine (hturns.lockstep_blind hblind hbeside).bind ?_
      rintro uploads after _ after' ⟨rfl, huploads, hbeside⟩
      -- what is held back was planned, or is the copy of a conflict
      have hheld : ∀ path ∈ uploads.holdBack, leftover.base[path]? = none := by
        intro path hpath
        rcases huploads.holdBack hpath with hbefore | hupload
        · rcases List.mem_append.mp hbefore with hfailed | hdeferred
          · obtain ⟨failure, hmem, rfl⟩ := List.mem_map.mp hfailed
            exact huntouched.failures failure hmem
          · obtain ⟨conflict, hmem, rfl⟩ := List.mem_map.mp hdeferred
            rcases hadds.deferred conflict hmem with hnone | hplanned
            · cases hnone
            · exact huntouched.conflicts conflict hplanned
        · obtain ⟨action, hmem, rfl⟩ := List.mem_map.mp hupload
          rcases hadds.uploads action hmem with hplanned | ⟨conflict, hplanned, hcases⟩
          · exact huntouched.uploads action hplanned
          · rcases hcases with hown | ⟨hours, htheirs, hcopy⟩
            · rw [hown]
              exact huntouched.conflicts conflict hplanned
            · rw [hcopy]
              exact huntouched.copies conflict hplanned hours htheirs
      simp only
      split
      next hfatal =>
        refine ⟨rfl, fun done hdone hcheckpointed => ?_⟩
        obtain rfl := Except.ok.inj hdone
        rw [SyncResult.Checkpointed, hfatal] at hcheckpointed
        cases hcheckpointed.1
      next =>
        refine (hturns.lockstep_checkpoint houtdated hbeside hheld).bind ?_
        rintro answer after _ after' ⟨rfl, hbase⟩
        cases answer with
        | ok value => exact ⟨rfl, fun _ _ _ => hbase rfl⟩
        | error error =>
            refine ⟨rfl, fun done hdone hcheckpointed => ?_⟩
            obtain rfl := Except.ok.inj hdone
            cases hcheckpointed.2

/-- Bookkeeping of another vault that has nothing to say about what the first
cycle of a vault has to do does not show in it. -/
theorem harmless_leftovers_do_not_show
    (hharmless : Harmless context nanos folder server leftover) :
    Unaffected context nanos folder server leftover := by
  intro envs prepared
  rcases hharmless.lockstep_prepare.exec envs with
    ⟨result, result', hdone, hdone', rfl, hbeside, huntouched⟩ | ⟨hnone, hnone'⟩
  · refine ⟨?_, ?_⟩
    · exact (congrArg Prog.result? hdone).trans (congrArg Prog.result? hdone').symm
    · intro plan hplan resolutions turns completed
      have hplan : result = .ok plan := by
        simp only [prepared, hdone] at hplan
        exact Option.some.inj hplan
      have hturns : Turns context leftover server.vault.revision (fun _ => True)
          (handleAmid context) := turns_handleAmid
      have hcomplete := (hturns.lockstep_complete hharmless.outdated (huntouched plan hplan)
        resolutions hbeside).exec turns
      rcases hcomplete with ⟨final, final', hfinal, hfinal', rfl, hbase⟩ | ⟨hnone, hnone'⟩
      · refine ⟨?_, ?_⟩
        · exact (congrArg Prog.result? hfinal).trans (congrArg Prog.result? hfinal').symm
        · intro done hended hcheckpointed
          refine hbase done ?_ hcheckpointed
          simp only [completed, prepared, hfinal] at hended
          exact Option.some.inj hended
      · refine ⟨hnone.trans hnone'.symm, ?_⟩
        intro done hended
        rw [show (completed leftover).1.result? = none from hnone] at hended
        cases hended
  · refine ⟨hnone.trans hnone'.symm, ?_⟩
    intro plan hplan
    rw [show (prepared leftover).1.result? = none from hnone] at hplan
    cases hplan

end Cycle

/-! ## A folder that changes its vault -/

/-- What the first cycle of a vault leaves in a folder with one file `note`. -/
def leftBehind : Bookkeeping :=
  let device := (exec (handle sampleContext) (cycle .sample .defaults) (List.replicate 16 {})
    sampleWorld).2.device
  { base := device.base
    cache := device.cache
    hashes := some ((HashCache.empty .sample).insert "note" (statOf 0 ⟨[104, 105], 1⟩)
      (Crypto.sample.contentHmac [104, 105])) }

theorem leftBehind_eq : ∃ entry copy, leftBehind.base = (∅ : Manifest).insert "note" entry ∧
    leftBehind.cache = some copy ∧ copy.etag = some (Server.etagOf 1) := by
  have hleft : leftBehind.base = (∅ : Manifest).insert "note" (leftBehind.base["note"]?.getD {}) ∧
      (leftBehind.cache.bind RemoteManifestCache.etag) = some (Server.etagOf 1) := by
    decide +kernel
  obtain ⟨hbase, hcache⟩ := hleft
  obtain ⟨copy, hcopy, hetag⟩ := Option.bind_eq_some_iff.mp hcache
  exact ⟨_, copy, hbase, hcopy, hetag⟩

/-- The next vault has other files and is further on; the folder has one of
them, with other content. -/
theorem leftovers_of_sample_do_not_show :
    Unaffected sampleContext (fun _ => 0) (oneFile "a" [1]) newerServer leftBehind := by
  obtain ⟨entry, copy, hbase, hcache, hetag⟩ := leftBehind_eq
  have hother : ∀ path : String, path ≠ "note" → leftBehind.base[path]? = none := by
    intro path hpath
    rw [hbase, Std.ExtTreeMap.getElem?_insert_of_ne _ _ (Ne.symm hpath)]
    exact Std.ExtTreeMap.getElem?_empty
  apply harmless_leftovers_do_not_show
  refine ⟨?_, ?_, ?_⟩
  · intro found etag hfound hsome later hlater
    obtain rfl : copy = found := Option.some.inj (hcache.symm.trans hfound)
    obtain rfl : Server.etagOf 1 = etag := Option.some.inj (hetag.symm.trans hsome)
    have hrevision : newerServer.vault.revision = 2 := by decide +kernel
    rw [Bool.eq_false_iff]
    intro hhit
    have hsame := (Server.ifNoneMatchHits_etagOf 1 later).mp hhit
    change newerServer.vault.revision ≤ later at hlater
    omega
  · have hmiss : ∀ item ∈ (oneFile "a" [1]).toList,
        (HashCache.load .sample leftBehind.hashes).lookup (normalizePath item.1)
          (statOf 0 item.2) = none := by
      decide +kernel
    intro item hmem hash hfound
    rw [show sampleContext.crypto = .sample from rfl, hmiss item hmem] at hfound
    cases hfound
  · intro remote hdecode
    have hrows : ∀ manifest, decodeManifest .sample newerServer.vault.files = .ok manifest →
        manifest["note"]? = none := by
      have hnone : ((decodeManifest .sample newerServer.vault.files).toOption.bind
          fun manifest : Manifest => manifest["note"]?) = none := by
        decide +kernel
      intro manifest hmanifest
      rw [hmanifest] at hnone
      exact hnone
    have hwalk : buildManifestWithCache .sample .defaults (fun _ => 0) (.empty .sample)
        (oneFile "a" [1]) = (∅ : Manifest).insert "a" (walkEntry .sample ⟨[1], 1⟩) := by
      decide +kernel
    have honly : ∀ path : String, path ≠ "a" →
        ((∅ : Manifest).insert "a" (walkEntry .sample ⟨[1], 1⟩))[path]? = none := by
      intro path hpath
      rw [Std.ExtTreeMap.getElem?_insert_of_ne _ _ (Ne.symm hpath)]
      exact Std.ExtTreeMap.getElem?_empty
    change Silent .defaults leftBehind.base (buildManifestWithCache .sample .defaults (fun _ => 0)
      (.empty .sample) (oneFile "a" [1])) remote
    rw [hwalk]
    refine ⟨?_, ?_⟩
    · intro path _ hdiffer
      apply hother
      rintro rfl
      rw [honly "note" (by decide), hrows remote hdecode] at hdiffer
      exact hdiffer rfl
    · intro path ours theirs _ hours _ _ _ _
      apply hother
      have hpath : path = "a" := by
        by_contra hne
        rw [honly path hne] at hours
        cases hours
      rw [hpath]
      decide

/-- A vault whose first revision has another `note`. -/
def noteServer : Server.State :=
  ((callOf sampleContext {} (firstPut "note" [9])).serve Server.sampleConfig emptyWorld.server).2

/-- The plan of a first cycle in an empty folder with this bookkeeping. -/
def planIn (bookkeeping : Bookkeeping) : Option SyncPlan :=
  (exec (handle sampleContext) (prepareSyncWith .sample .defaults (fun _ => 0) bookkeeping.hashes)
    (List.replicate 16 {}) (bookkeeping.world ∅ noteServer)).1.result?.bind Except.toOption

/-- The next vault is at the revision the first one was at: its manifest is
taken for that of the first one, and its `note`, which is not in the emptied
folder, is to be deleted on the server where it should be downloaded. -/
theorem leftovers_of_other_vault_show_in_sample :
    ¬Unaffected sampleContext (fun _ => 0) ∅ noteServer leftBehind ∧
      (planIn leftBehind).map (fun plan => plan.upload.map fun action =>
        (action.path, action.kind)) = some [("note", .deleteRemote)] ∧
      (planIn {}).map (fun plan => plan.download.map fun action => (action.path, action.kind)) =
        some [("note", .download)] := by
  have hplans : planIn leftBehind ≠ planIn {} ∧
      (planIn leftBehind).map (fun plan => plan.upload.map fun action =>
        (action.path, action.kind)) = some [("note", .deleteRemote)] ∧
      (planIn {}).map (fun plan => plan.download.map fun action => (action.path, action.kind)) =
        some [("note", .download)] := by
    decide +kernel
  refine ⟨fun hall => hplans.1 ?_, hplans.2⟩
  have hsame := (hall (List.replicate 16 {})).1
  exact congrArg (fun result => result.bind Except.toOption) hsame

end ObSink.Engine
