import ObSink.Engine.Answers
import ObSink.Engine.Rows
import ObSink.Engine.Sound

/-! # Resolution rounds

A cycle whose result leaves conflicts open goes on with `complete_sync` on those
conflicts, any number of times, and anything may fail. What becomes of a
download or a local delete of the first plan that did not succeed: the first
round holds its checkpoint entry back, the later ones know nothing about it.
-/

namespace ObSink.Engine

open Prog (Setting Holds Within Reaches exec perform holds_bind holds_perform holds_pure within_bind
  within_perform)

variable {context : Context}

/-- One operation, whatever fails. -/
def Faulty (context : Context) (effect : Effect) (before : World) (reply : effect.Reply)
    (after : World) : Prop :=
  Performs context (fun _ => True) effect before reply after

/-! ## What every operation keeps -/

/-- A cached manifest bears the tag of a revision; if that is the current one,
it has what the rows list. -/
def CacheLists (context : Context) (world : World) : Prop :=
  ∀ cache etag, world.device.cache = some cache → cache.etag = some etag →
    ∃ revision, etag = Server.etagOf revision ∧ revision ≤ world.server.vault.revision ∧
      (revision = world.server.vault.revision →
        ∀ path, cache.manifest[path]? = listed context world.server path)

/-- Rows in order and a cache that is right whenever its tag is current. -/
structure Tidy (context : Context) (world : World) : Prop where
  orderly : Orderly context world.server
  cached : CacheLists context world

theorem listed_congr {server after : Server.State} (hvault : after.vault = server.vault)
    (path : String) : listed context after path = listed context server path := by
  unfold listed
  rw [remoteAt_congr (congrArg Server.Vault.files hvault)]

/-- The device's own requests keep all of it. -/
theorem Tidy.serve (hideal : context.crypto.Ideal) {world : World} (htidy : Tidy context world)
    (env : Env) (op : BatchOp) :
    Tidy context { world with server := ((callOf context env op).serve context.server
      world.server).2 } := by
  refine ⟨htidy.orderly.serve hideal _ (plain_normalizePath op.path)
    (fromClient_wireOperation context.crypto env.nonce op), ?_⟩
  intro cache etag hcache hetag
  obtain ⟨revision, htag, hle, hlists⟩ := htidy.cached cache etag hcache hetag
  rcases Server.serve_vault context.server (callOf context env op) world.server with
    ⟨entry, _, hvault⟩ | ⟨_, hvault⟩
  · have hnext : ((callOf context env op).serve context.server world.server).2.vault.revision =
        world.server.vault.revision + 1 := by
      rw [hvault]
      rfl
    refine ⟨revision, htag, by simp only [hnext]; omega, ?_⟩
    intro hcurrent
    simp only [hnext] at hcurrent
    omega
  · refine ⟨revision, htag, by rw [hvault]; exact hle, ?_⟩
    intro hcurrent path
    rw [hvault] at hcurrent
    rw [listed_congr hvault]
    exact hlists hcurrent path

/-- An operation that is no bookkeeping keeps the checkpoint and the cache. -/
theorem handle_blind (context : Context) (env : Env) {effect : Effect} (hblind : effect.Blind)
    (world : World) :
    (handle context env effect world).2.device.base = world.device.base ∧
      (handle context env effect world).2.device.cache = world.device.cache := by
  cases effect with
  | loadLocalState => exact hblind.elim
  | loadRemoteCache => exact hblind.elim
  | saveRemoteCache cache => exact hblind.elim
  | loadBase => exact hblind.elim
  | saveBase manifest => exact hblind.elim
  | deleteLocalFile path =>
      simp only [handle]
      split
      next => exact ⟨rfl, rfl⟩
      next =>
        rcases env.change_cases world (world.device.removeFile path) with hdone | ⟨_, hfailed⟩
        · rw [hdone]
          exact ⟨rfl, rfl⟩
        · rw [hfailed]
          exact ⟨rfl, rfl⟩
  | writeFile path content =>
      simp only [handle]
      rcases env.change_cases world (world.device.setFile path ⟨content, env.now⟩) with
        hdone | ⟨_, hfailed⟩
      · rw [hdone]
        exact ⟨rfl, rfl⟩
      · rw [hfailed]
        exact ⟨rfl, rfl⟩
  | statFile path =>
      simp only [handle]
      split <;> exact ⟨rfl, rfl⟩
  | sealFile path =>
      simp only [handle]
      split <;> exact ⟨rfl, rfl⟩
  | _ => exact ⟨rfl, rfl⟩

theorem Tidy.of_same {world after : World} (htidy : Tidy context world)
    (hserver : after.server = world.server) (hcache : after.device.cache = world.device.cache) :
    Tidy context after := by
  refine ⟨by rw [hserver]; exact htidy.orderly, ?_⟩
  intro cache etag
  rw [hserver, hcache]
  exact htidy.cached cache etag

variable (context) in
/-- In order, with the checkpoint entry the path had. -/
def Kept (path : String) (entry : Option FileEntry) (world : World) : Prop :=
  Tidy context world ∧ world.device.base[path]? = entry

theorem Kept.blind (hideal : context.crypto.Ideal) {path : String} {entry : Option FileEntry}
    {effect : Effect} (hblind : effect.Blind) {before after : World} {reply : effect.Reply}
    (hperform : Faulty context effect before reply after)
    (hkept : Kept context path entry before) : Kept context path entry after := by
  obtain ⟨env, _, hhandle⟩ := hperform
  obtain ⟨hbase, hcache⟩ := handle_blind context env hblind before
  rw [hhandle] at hbase hcache
  refine ⟨?_, by rw [hbase]; exact hkept.2⟩
  by_cases hop : ∃ op, effect = .applyOp op
  · obtain ⟨op, rfl⟩ := hop
    have hafter := hkept.1.serve hideal env op
    simp only [handle, Prod.mk.injEq] at hhandle
    rw [← hhandle.2]
    exact hafter
  · have hserver := handle_server context env
      (fun op heq => hop ⟨op, heq⟩) before
    rw [hhandle] at hserver
    exact hkept.1.of_same hserver hcache

/-! ## The programs of a round -/

/-- Alone with the server, and `inv` after every operation. -/
def keeping (performs : (effect : Effect) → World → effect.Reply → World → Prop)
    (inv : World → Prop) : Setting Effect Effect.Reply World where
  performs := performs
  rely := Eq
  guarantee := fun _ _ _ after => inv after

section Programs

variable {performs : (effect : Effect) → World → effect.Reply → World → Prop}
  (hideal : context.crypto.Ideal)
  (hfaulty : ∀ effect before reply after, performs effect before reply after →
    Faulty context effect before reply after)
  {path : String} {entry : Option FileEntry}

include hideal hfaulty

theorem holds_blind {α : Type} {prog : Eff α} {post : α → Prop}
    (hwithin : Within Effect.Blind post prog) {world : World}
    (hkept : Kept context path entry world) :
    Holds (keeping performs (Kept context path entry))
      (fun value after => Kept context path entry after ∧ post value) prog world := by
  refine hwithin.holds ?_ ?_ hkept
  · rintro a b rfl hinv
    exact hinv
  · intro effect hblind before reply after hinv hperform
    have hafter := hinv.blind hideal hblind (hfaulty _ _ _ _ hperform)
    exact ⟨hafter, hafter⟩

/-- What a manifest fetch leaves: only the cache may have changed. -/
structure AfterFetch (context : Context) (world after : World) : Prop where
  tidy : Tidy context after
  server : after.server = world.server
  folder : after.device.folder = world.device.folder
  base : after.device.base = world.device.base

omit hideal in
/-- The manifest of a round, through the cache or not, has what the rows list. -/
theorem holds_fetch {world : World} (hkept : Kept context path entry world) :
    Holds (keeping performs (Kept context path entry))
      (fun result after => AfterFetch context world after ∧ ∀ manifest, result = .ok manifest →
        ∀ path, manifest[path]? = listed context world.server path)
      (fetchRemoteManifest context.crypto) world := by
  obtain ⟨htidy, hbase⟩ := hkept
  have hsame : AfterFetch context world world := ⟨htidy, rfl, rfl, rfl⟩
  rw [fetchRemoteManifest, holds_bind]
  refine (holds_perform Effect.loadRemoteCache).mpr ?_
  rintro before rfl loaded after hperform
  obtain ⟨env, _, hhandle⟩ := hfaulty _ _ _ _ hperform
  have hread : after = world ∧ (loaded = world.device.cache ∨ loaded = none) := by
    simp only [handle] at hhandle
    split at hhandle
    next cache hload =>
      obtain ⟨rfl, rfl⟩ := Prod.mk.inj hhandle
      refine ⟨rfl, Or.inl ?_⟩
      unfold Env.onDevice at hload
      split at hload
      next => cases hload
      next => exact (Except.ok.inj hload).symm
    next =>
      obtain ⟨rfl, rfl⟩ := Prod.mk.inj hhandle
      exact ⟨rfl, Or.inr rfl⟩
  obtain ⟨rfl, hloaded⟩ := hread
  have hcached : ∀ cache, (loaded.filter fun cache => cache.etag.isSome) = some cache →
      after.device.cache = some cache ∧ cache.etag.isSome = true := by
    intro cache hcache
    obtain ⟨hsome, htagged⟩ := Option.filter_eq_some_iff.mp hcache
    rcases hloaded with rfl | rfl
    · exact ⟨hsome, htagged⟩
    · cases hsome
  refine ⟨⟨htidy, hbase⟩, ?_⟩
  generalize (loaded.filter fun cache => cache.etag.isSome) = cached at hcached
  rw [holds_bind]
  unfold getManifestIfChanged
  rw [holds_bind]
  refine (holds_perform (Effect.getManifest _)).mpr ?_
  rintro before rfl reply later hperform
  obtain ⟨env, _, hhandle⟩ := hfaulty _ _ _ _ hperform
  simp only [handle, Prod.mk.injEq] at hhandle
  obtain ⟨hreply, rfl⟩ := hhandle
  refine ⟨⟨htidy, hbase⟩, ?_⟩
  rcases manifest_answers env after.server.vault context.userId
      (cached.bind RemoteManifestCache.etag) with
    ⟨error, hanswer⟩ | ⟨hhit, hanswer⟩ | hanswer
  · obtain rfl := hreply.symm.trans hanswer
    exact ⟨hsame, fun manifest hok => by cases hok⟩
  · obtain rfl := hreply.symm.trans hanswer
    -- not modified: the cache has the tag of the current revision
    cases cached with
    | none => cases hhit
    | some cache =>
        obtain ⟨hcache, htagged⟩ := hcached cache rfl
        obtain ⟨etag, hetag⟩ := Option.isSome_iff_exists.mp htagged
        obtain ⟨revision, rfl, _, hlists⟩ := htidy.cached cache etag hcache hetag
        rw [Option.bind_some, hetag, Server.ifNoneMatchHits_etagOf] at hhit
        refine ⟨hsame, ?_⟩
        intro manifest hok
        obtain rfl := Except.ok.inj hok
        exact hlists hhit
  · obtain rfl := hreply.symm.trans hanswer
    obtain ⟨manifest, hdecode, hlists⟩ := htidy.orderly.decode
    simp only [hdecode, holds_pure, Option.isSome_some, ↓reduceIte, holds_bind]
    refine (holds_perform (Effect.saveRemoteCache _)).mpr ?_
    rintro before rfl reply later hperform
    obtain ⟨env, _, hhandle⟩ := hfaulty _ _ _ _ hperform
    have hdone : ∀ later, AfterFetch context after later →
        Kept context path entry later ∧ AfterFetch context after later ∧
          ∀ found, (Except.ok manifest : Except SyncEngineError Manifest) = .ok found →
            ∀ path, found[path]? = listed context after.server path := by
      intro later hafter
      refine ⟨⟨hafter.tidy, by rw [hafter.base]; exact hbase⟩, hafter, ?_⟩
      intro found hok
      obtain rfl := Except.ok.inj hok
      exact hlists
    apply hdone
    change env.change after _ = _ at hhandle
    rcases env.change_cases after
        { after.device with
          cache := some (⟨some (Server.etagOf after.server.vault.revision), manifest⟩ :
            RemoteManifestCache) } with hsaved | ⟨_, hfailed⟩
    · obtain ⟨_, rfl⟩ := Prod.mk.inj (hhandle.symm.trans hsaved)
      refine ⟨⟨htidy.orderly, ?_⟩, rfl, rfl, rfl⟩
      intro cache etag hcache hetag
      obtain rfl := Option.some.inj hcache
      exact ⟨_, (Option.some.inj hetag).symm, le_rfl, fun _ => hlists⟩
    · obtain ⟨_, rfl⟩ := Prod.mk.inj (hhandle.symm.trans hfailed)
      exact hsame

end Programs

/-! ## The downloads of a plan -/

/-- The folder has what the server has: its content, or nothing. -/
def Delivered (context : Context) (server : Server.State) (path : String) (world : World) : Prop :=
  match version (listed context server path) with
  | .gone => world.device.folder[path]? = none
  | .present _ => ∃ blob file, contentAt context server path = some blob ∧
      world.device.folder[path]? = some file ∧ context.crypto.decrypt blob = .ok file.content

/-- A transfer of the plan that failed, or may never have been started because
of a fatal stop. -/
def Left (path : String) (plan : SyncPlan) : Prop :=
  path ∈ plan.failures.map SyncFailure.path ∨ plan.failures.any SyncFailure.fatal = true

/-- A plan is the diff of the device's checkpoint and folder with the rows. -/
def PlannedFrom (context : Context) (start : World) (plan : SyncPlan) : Prop :=
  ∃ now remote, (∀ path, remote[path]? = listed context start.server path) ∧
    ∃ failures, plan =
      { diffLocalAndRemote start.device.base
          (buildWorkingManifest context.crypto context.ignore now start.device.folder
            start.device.base) remote context.ignore with failures }

section Downloads

variable {performs : (effect : Effect) → World → effect.Reply → World → Prop}
  (hfaulty : ∀ effect before reply after, performs effect before reply after →
    Faulty context effect before reply after)
  {path : String} {server : Server.State}

/-- Only the operations of the download phase. -/
def downloading (performs : (effect : Effect) → World → effect.Reply → World → Prop) :
    Setting Effect Effect.Reply World where
  performs := fun effect before reply after =>
    performs effect before reply after ∧ effect.Downloads
  rely := Eq
  guarantee := fun _ _ _ _ => True

include hfaulty

theorem stable_server : Stable (downloading performs) path fun world => world.server = server where
  rely := by
    rintro a b rfl hinv
    exact hinv
  elsewhere := by
    rintro effect _ before reply after hserver ⟨hperform, hdownloads⟩
    obtain ⟨env, _, hhandle⟩ := hfaulty _ _ _ _ hperform
    have hop : ∀ op, effect ≠ .applyOp op := by
      rintro op rfl
      exact hdownloads
    have hsame := handle_server context env hop before
    rw [hhandle] at hsame
    exact ⟨trivial, hsame.trans hserver⟩

theorem stable_file (known : Option StoredFile → Prop) :
    Stable (downloading performs) path fun world => known world.device.folder[path]? where
  rely := by
    rintro a b rfl hinv
    exact hinv
  elsewhere := by
    rintro effect helsewhere before reply after hknown ⟨hperform, hdownloads⟩
    obtain ⟨env, _, hhandle⟩ := hfaulty _ _ _ _ hperform
    refine ⟨trivial, ?_⟩
    suffices hfile : after.device.folder[path]? = before.device.folder[path]? by
      simpa only [hfile] using hknown
    have hchange : ∀ device, device.folder[path]? = before.device.folder[path]? →
        (env.change before device).2.device.folder[path]? = before.device.folder[path]? := by
      intro device hfile
      rcases env.change_cases before device with hdone | ⟨_, hfailed⟩
      · rw [hdone]
        exact hfile
      · rw [hfailed]
    cases effect with
    | deleteLocalFile other =>
        simp only [handle] at hhandle
        split at hhandle
        next => rw [← (Prod.mk.inj hhandle).2]
        next =>
          rw [← (show _ = after from congrArg Prod.snd hhandle)]
          exact hchange _ (Std.ExtTreeMap.getElem?_erase_of_ne _ helsewhere)
    | writeFile other content =>
        rw [← (show _ = after from congrArg Prod.snd hhandle)]
        exact hchange _ (Std.ExtTreeMap.getElem?_insert_of_ne _ _ helsewhere)
    | getFile other => rw [← (show _ = after from congrArg Prod.snd hhandle)]; rfl
    | pick => rw [← (show _ = after from congrArg Prod.snd hhandle)]; rfl
    | _ => exact hdownloads.elim

theorem stable_delivered : Stable (downloading performs) path (Delivered context server path) := by
  unfold Delivered
  cases version (listed context server path) with
  | gone => exact stable_file hfaulty fun file => file = none
  | present hash =>
      exact stable_file hfaulty fun found => ∃ blob file,
        contentAt context server path = some blob ∧ found = some file ∧
          context.crypto.decrypt blob = .ok file.content

/-- How a download delivers, with the server as it was. -/
theorem fetchRule_delivered {hash : String} (hplain : Plain path)
    (hlive : version (listed context server path) = .present hash) :
    FetchRule (downloading performs) path context.crypto (fun world => world.server = server)
      (Delivered context server path) (fun _ => True)
      (fun blob world => world.server = server ∧ contentAt context server path = some blob) where
  stable_before := stable_server hfaulty
  stable_after := stable_delivered hfaulty
  stable_failed := ⟨fun _ _ _ _ => trivial, fun _ _ _ _ _ _ _ => ⟨trivial, trivial⟩⟩
  stable_fetched := fun blob => (stable_server hfaulty).and_fact _
  get := by
    rintro before reply after hserver ⟨hperform, _⟩
    obtain ⟨env, _, hhandle⟩ := hfaulty _ _ _ _ hperform
    simp only [handle, Prod.mk.injEq] at hhandle
    obtain ⟨hreply, rfl⟩ := hhandle
    refine ⟨trivial, ?_⟩
    cases reply with
    | error error => trivial
    | ok blob =>
        refine ⟨hserver, ?_⟩
        have hget : Server.getFile context.server before.server context.userId
            (context.crypto.pathToken path) = .ok blob := by
          unfold Env.onNetwork at hreply
          split at hreply
          next => cases hreply
          next =>
            split at hreply
            next value hvalue => exact hvalue.trans (congrArg Except.ok (Except.ok.inj hreply))
            next => cases hreply
        rw [contentAt, if_pos hplain, ← hserver]
        exact Server.body_of_getFile hget
  unreadable := fun _ _ _ _ _ => trivial
  write := by
    rintro blob plaintext hdecrypt before reply after ⟨hserver, hcontent⟩ ⟨hperform, _⟩
    obtain ⟨env, _, hhandle⟩ := hfaulty _ _ _ _ hperform
    refine ⟨trivial, ?_⟩
    cases reply with
    | error error => trivial
    | ok value =>
        change env.change before _ = _ at hhandle
        rcases env.change_cases before (before.device.setFile path ⟨plaintext, env.now⟩) with
          hdone | ⟨_, hfailed⟩
        · obtain ⟨_, rfl⟩ := Prod.mk.inj (hhandle.symm.trans hdone)
          simp only [orFailed, Delivered, hlive]
          exact ⟨blob, ⟨plaintext, env.now⟩, hcontent, by simp [Device.setFile], hdecrypt⟩
        · cases (Prod.mk.inj (hhandle.symm.trans hfailed)).1

/-- How a local delete delivers. -/
theorem triple_delete_delivers (hgone : version (listed context server path) = .gone) :
    (downloading performs).Triple (.deleteLocalFile path) (fun _ => True)
      (orFailed (fun _ => Delivered context server path) fun _ => True) := by
  rintro before reply after _ ⟨hperform, _⟩
  obtain ⟨env, _, hhandle⟩ := hfaulty _ _ _ _ hperform
  refine ⟨trivial, ?_⟩
  cases reply with
  | error error => trivial
  | ok value =>
      simp only [orFailed, Delivered, hgone]
      simp only [handle] at hhandle
      split at hhandle
      next hnone =>
        rw [← (Prod.mk.inj hhandle).2]
        exact hnone
      next =>
        rcases env.change_cases before (before.device.removeFile path) with hdone | ⟨_, hfailed⟩
        · obtain ⟨_, rfl⟩ := Prod.mk.inj (hhandle.symm.trans hdone)
          simp [Device.removeFile]
        · cases (Prod.mk.inj (hhandle.symm.trans hfailed)).1

/-- Every planned transfer delivers, or is left. -/
theorem holds_delivered {downloads : List SyncAction}
    (hnodup : (downloads.map SyncAction.path).Nodup) {action : SyncAction}
    (hmem : action ∈ downloads)
    (hkind : (action.kind = .deleteLocal ∧ version (listed context server action.path) = .gone) ∨
      (action.kind = .download ∧ ∃ hash,
        version (listed context server action.path) = .present hash))
    {world : World} (hserver : world.server = server) :
    Holds ⟨performs, Eq, fun _ _ _ _ => True⟩
      (fun failures after => Delivered context server action.path after ∨
        action.path ∈ failures.map SyncFailure.path ∨ failures.any SyncFailure.fatal = true)
      (applyDownloads context.crypto downloads) world := by
  refine Holds.of_within (applyDownloads_downloads context.crypto downloads) ?_
  change Holds (downloading performs) _ _ _
  have htrue : Stable (downloading performs) action.path fun _ => True :=
    ⟨fun _ _ _ _ => trivial, fun _ _ _ _ _ _ _ => ⟨trivial, trivial⟩⟩
  rcases hkind with ⟨hdelete, hgone⟩ | ⟨hdownload, hash, hlive⟩
  · refine (holds_applyDownloads_delete context.crypto htrue (stable_delivered hfaulty) htrue
      (triple_delete_delivers hfaulty hgone) hnodup hmem rfl hdelete trivial).mono ?_
    rintro failures after (⟨hdelivered, _⟩ | ⟨_, hfailed⟩)
    · exact Or.inl hdelivered
    · exact Or.inr (Or.inl (not_not.mp hfailed))
  · have hplain : Plain action.path := by
      unfold listed at hlive
      cases hrow : remoteAt context server action.path with
      | none => simp [hrow, version] at hlive
      | some entry => exact plain_of_remoteAt hrow
    refine ((fetchRule_delivered hfaulty hplain hlive).holds_applyDownloads hnodup hmem rfl
      hdownload hserver).mono ?_
    rintro failures after (⟨hdelivered, _⟩ | ⟨_, hfailed⟩ | ⟨_, hfatal, _⟩)
    · exact Or.inl hdelivered
    · exact Or.inr (Or.inl (not_not.mp hfailed))
    · exact Or.inr (Or.inr hfatal)

end Downloads

/-! ## What a plan says about a path -/

/-- The version of a path in the folder, as the walk lists it. -/
def localVersion (context : Context) (world : World) (path : String) : Version :=
  version (buildManifest context.crypto context.ignore world.device.folder)[path]?

/-- The decision behind a plan, in terms of versions. -/
theorem PlannedFrom.decision {start : World} {plan : SyncPlan}
    (hplanned : PlannedFrom context start plan) (path : String) :
    ∃ base working remote,
      plan = { diffManifests base working remote with failures := plan.failures } ∧
      (context.ignore.isIgnored path = true →
        decisionAt base working remote path = .nothing) ∧
      (context.ignore.isIgnored path = false →
        version base[path]? = version start.device.base[path]? ∧
        version working[path]? = localVersion context start path ∧
        version remote[path]? = version (listed context start.server path)) := by
  obtain ⟨now, remote, hremote, failures, rfl⟩ := hplanned
  refine ⟨_, _, _, rfl, ?_, ?_⟩
  · intro hignored
    simp [decisionAt, keep_getElem?, hignored, decide3, version]
  · intro hseen
    simp only [keep_getElem?, hseen, Bool.false_eq_true, ↓reduceIte, hremote path,
      and_true, true_and]
    exact version_buildWorkingManifest _ _ now _ _ path

/-- A planned transfer: the server's version is not the checkpoint's. -/
theorem PlannedFrom.download {start : World} {plan : SyncPlan}
    (hplanned : PlannedFrom context start plan) {action : SyncAction}
    (hmem : action ∈ plan.download) :
    context.ignore.isIgnored action.path = false ∧
      version (listed context start.server action.path) ≠
        version start.device.base[action.path]? ∧
      ((action.kind = .deleteLocal ∧ version (listed context start.server action.path) = .gone) ∨
        (action.kind = .download ∧
          ∃ hash, version (listed context start.server action.path) = .present hash)) := by
  obtain ⟨base, working, remote, heq, hignored, hversions⟩ := hplanned.decision action.path
  rw [heq] at hmem
  have hdecision := mem_diff_download.mp hmem
  cases hseen : context.ignore.isIgnored action.path with
  | true =>
      rw [hignored hseen] at hdecision
      cases hdecision
  | false =>
      obtain ⟨hbase, _, hremote⟩ := hversions hseen
      rw [decisionAt, decide3_eq] at hdecision
      split at hdecision
      next => cases hdecision
      next hdiffers =>
        split at hdecision
        next hlocal =>
          have hne : version remote[action.path]? ≠ version base[action.path]? :=
            fun hsame => hdiffers (hlocal.trans hsame.symm)
          rw [hremote, hbase] at hne
          refine ⟨rfl, hne, ?_⟩
          have hkind := congrArg SyncAction.kind (Decision.download.inj hdecision)
          simp only [hremote] at hkind
          cases hversion : version (listed context start.server action.path) with
          | gone =>
              rw [hversion] at hkind
              exact Or.inl ⟨hkind.symm, rfl⟩
          | present hash =>
              rw [hversion] at hkind
              exact Or.inr ⟨hkind.symm, hash, rfl⟩
        next =>
          split at hdecision <;> cases hdecision

/-- Where the server's version is not the checkpoint's, a plan never uploads,
and takes up the path unless the folder has the server's version. -/
theorem PlannedFrom.pending {start : World} {plan : SyncPlan}
    (hplanned : PlannedFrom context start plan) {path : String}
    (hseen : context.ignore.isIgnored path = false)
    (hne : version (listed context start.server path) ≠ version start.device.base[path]?) :
    path ∉ plan.upload.map SyncAction.path ∧
      (path ∈ plan.download.map SyncAction.path ∨ path ∈ plan.conflicts.map Conflict.path ∨
        localVersion context start path = version (listed context start.server path)) := by
  obtain ⟨base, working, remote, heq, _, hversions⟩ := hplanned.decision path
  obtain ⟨hbase, hlocal, hremote⟩ := hversions hseen
  rw [← hbase, ← hremote] at hne
  rw [heq, ← hlocal, ← hremote]
  have hdecide := decide3_eq path base[path]? working[path]? remote[path]?
  change decisionAt base working remote path = _ at hdecide
  constructor
  · intro hupload
    obtain ⟨action, hmem, rfl⟩ := List.mem_map.mp hupload
    have hdecision := mem_diff_upload.mp hmem
    rw [hdecide] at hdecision
    repeat' split at hdecision
    all_goals first
      | exact hne (by assumption)
      | cases hdecision
  · by_cases hsame : version working[path]? = version remote[path]?
    · exact Or.inr (Or.inr hsame)
    · rw [if_neg hsame] at hdecide
      by_cases hfollows : version working[path]? = version base[path]?
      · rw [if_pos hfollows] at hdecide
        exact Or.inl (path_mem_diff_download hdecide)
      · rw [if_neg hfollows, if_neg hne] at hdecide
        exact Or.inr (Or.inl (path_mem_diff_conflicts hdecide))

/-! ## Rounds -/

/-- What keeps a path out of a round's checkpoint: its transfer failed before
the round, a fatal failure rules the checkpoint out, or its conflict is deferred. -/
def Outstanding (path : String) (plan : SyncPlan) (resolutions : List ConflictResolution) : Prop :=
  Left path plan ∨ ∃ conflict ∈ plan.conflicts, conflict.path = path ∧
    choiceOf resolutions conflict = some .defer

section Rounds

variable {performs : (effect : Effect) → World → effect.Reply → World → Prop}
  (hideal : context.crypto.Ideal)
  (hfaulty : ∀ effect before reply after, performs effect before reply after →
    Faulty context effect before reply after)
  {path : String} {entry : Option FileEntry}

include hideal hfaulty

/-- A prepare keeps the checkpoint, and its transfers deliver or are left. -/
theorem holds_prepare {start : World} (hkept : Kept context path entry start) :
    Holds (keeping performs (Kept context path entry))
      (fun result after => Kept context path entry after ∧ ∀ plan, result = .ok plan →
        PlannedFrom context start plan ∧ ∀ action ∈ plan.download,
          Delivered context start.server action.path after ∨ Left action.path plan)
      (prepareSync context.crypto context.ignore) start := by
  rw [prepareSync, holds_bind]
  refine (holds_perform Effect.loadLocalState).mpr ?_
  rintro before rfl reply after hperform
  obtain ⟨env, _, hhandle⟩ := hfaulty _ _ _ _ hperform
  have hload : after = start ∧ ((∃ error, reply = .error error) ∨
      reply = .ok (start.device.base, start.device.folder, env.now)) := by
    simp only [handle, Prod.mk.injEq] at hhandle
    obtain ⟨hreply, rfl⟩ := hhandle
    refine ⟨rfl, ?_⟩
    unfold Env.onDevice at hreply
    split at hreply
    next error _ => exact Or.inl ⟨error, hreply.symm⟩
    next => exact Or.inr hreply.symm
  obtain ⟨rfl, ⟨error, rfl⟩ | rfl⟩ := hload
  · exact ⟨hkept, hkept, fun plan hok => by cases hok⟩
  · refine ⟨hkept, ?_⟩
    simp only [holds_bind]
    refine (holds_fetch hfaulty hkept).mono ?_
    rintro result fetched ⟨hfetched, hlists⟩
    have hnow : Kept context path entry fetched :=
      ⟨hfetched.tidy, by rw [hfetched.base]; exact hkept.2⟩
    cases result with
    | error error => exact ⟨hnow, fun plan hok => by cases hok⟩
    | ok remote =>
        have hremote := hlists remote rfl
        let diff := diffLocalAndRemote after.device.base (buildWorkingManifest context.crypto
          context.ignore env.now after.device.folder after.device.base) remote context.ignore
        have hplanned : ∀ failures, PlannedFrom context after { diff with failures } :=
          fun failures => ⟨env.now, remote, hremote, failures, rfl⟩
        -- every transfer on its own, all of them together with the checkpoint
        have hdelivered := Prog.holds_forall fun action : { action // action ∈ diff.download } =>
          holds_delivered hfaulty (nodup_diff_download _ _ _) action.2
            ((hplanned []).download action.2).2.2 hfetched.server
        have hdownloads := holds_blind hideal hfaulty
          ((applyDownloads_downloads context.crypto diff.download).weaken
            fun _ => Effect.Downloads.blind) hnow
        simp only [holds_bind]
        refine (hdownloads.and hdelivered).mono ?_
        rintro failures world ⟨⟨hworld, _⟩, hall⟩
        refine ⟨hworld, ?_⟩
        intro plan hok
        obtain rfl := Except.ok.inj hok
        exact ⟨hplanned failures, fun action hmem => hall ⟨action, hmem⟩⟩

omit hideal in
/-- The last write of a round: the checkpoint keeps a held-back entry. -/
theorem holds_checkpoint_held {held : List String}
    (hheld : path ∈ held ∨ ∀ manifest before reply after,
      ¬ performs (.saveBase manifest) before reply after)
    {world : World} (hkept : Kept context path entry world) :
    Holds (keeping performs (Kept context path entry))
      (fun _ after => Kept context path entry after)
      (checkpoint context.crypto held) world := by
  rw [checkpoint, holds_bind]
  refine (holds_fetch hfaulty hkept).mono ?_
  rintro result fetched ⟨hfetched, _⟩
  have hnow : Kept context path entry fetched :=
    ⟨hfetched.tidy, by rw [hfetched.base]; exact hkept.2⟩
  cases result with
  | error error => exact hnow
  | ok remote =>
      simp only [holds_bind]
      refine (holds_perform Effect.loadBase).mpr ?_
      rintro before rfl reply after hperform
      obtain ⟨env, _, hhandle⟩ := hfaulty _ _ _ _ hperform
      simp only [handle, Prod.mk.injEq] at hhandle
      obtain ⟨hreply, rfl⟩ := hhandle
      refine ⟨hnow, ?_⟩
      cases reply with
      | error error => exact hnow
      | ok previous =>
          have hprevious : previous = fetched.device.base := by
            unfold Env.onDevice at hreply
            split at hreply
            next => cases hreply
            next => exact (Except.ok.inj hreply).symm
          refine (holds_perform (Effect.saveBase _)).mpr ?_
          rintro before rfl reply after hsave
          have hafter : Kept context path entry after := by
            rcases hheld with hmem | hnever
            · obtain ⟨env, _, hhandle⟩ := hfaulty _ _ _ _ hsave
              change env.change fetched _ = _ at hhandle
              rcases env.change_cases fetched { fetched.device with
                  base := checkpointManifest previous remote held } with hdone | ⟨_, hfailed⟩
              · obtain ⟨_, rfl⟩ := Prod.mk.inj (hhandle.symm.trans hdone)
                refine ⟨hnow.1.of_same rfl rfl, ?_⟩
                change (checkpointManifest previous remote held)[path]? = entry
                rw [checkpointManifest_getElem?, if_pos hmem, hprevious]
                exact hnow.2
              · obtain ⟨_, rfl⟩ := Prod.mk.inj (hhandle.symm.trans hfailed)
                exact hnow
            · exact absurd hsave (hnever _ _ _ _)
          exact ⟨hafter, hafter⟩

/-- A round keeps the checkpoint entry of an outstanding path. -/
theorem holds_complete {plan : SyncPlan} {resolutions : List ConflictResolution}
    (houtstanding : Outstanding path plan resolutions ∨ ∀ manifest before reply after,
      ¬ performs (.saveBase manifest) before reply after)
    {world : World} (hkept : Kept context path entry world) :
    Holds (keeping performs (Kept context path entry))
      (fun _ after => Kept context path entry after)
      (completeSync context.crypto plan resolutions) world := by
  rw [completeSync, holds_bind]
  refine ((holds_blind hideal hfaulty (applyResolutions_blind context.crypto resolutions
    plan.conflicts ⟨plan.upload, []⟩) hkept).with_result
    (applyResolutions_deferred context.crypto resolutions plan.conflicts _)).mono ?_
  rintro (error | resolved) after ⟨⟨hresolved, _⟩, hdeferred⟩
  · exact hresolved
  simp only [holds_bind]
  have hblind := (runUploads_accounted resolved.uploads (plan.failures.map SyncFailure.path ++
    resolved.deferred.map Conflict.path)).weaken fun _ hseals => hseals.uploads.blind
  refine (holds_blind hideal hfaulty hblind hresolved).mono ?_
  rintro uploads later ⟨huploaded, haccounted⟩
  by_cases hfatal : (plan.failures ++ uploads.failures).any SyncFailure.fatal = true
  · rw [if_pos hfatal]
    exact huploaded
  · rw [if_neg hfatal, holds_bind]
    refine (holds_checkpoint_held hfaulty ?_ huploaded).mono ?_
    · refine houtstanding.imp_left ?_
      rintro ((hfailed | hstopped) | ⟨conflict, hmem, rfl, hdefer⟩)
      · exact haccounted.held _ (List.mem_append_left _ hfailed)
      · rw [List.any_append, hstopped, Bool.true_or] at hfatal
        exact absurd rfl hfatal
      · refine haccounted.held _ (List.mem_append_right _ ?_)
        exact List.mem_map.mpr ⟨conflict, (hdeferred resolved rfl).2 conflict hmem hdefer, rfl⟩
    · rintro (error | value) world hworld <;> exact hworld

end Rounds

/-- Round after round on what the previous one left open, cut off anywhere. The
operations of a round may depend on its plan and answers. -/
inductive Rounds (crypto : Crypto)
    (performs : SyncPlan → List ConflictResolution →
      (effect : Effect) → World → effect.Reply → World → Prop) : SyncPlan → World → World → Prop
  | cut {plan : SyncPlan} {resolutions : List ConflictResolution} {world after : World}
      {rest : Eff (Except SyncEngineError SyncResult)}
      (hround : Reaches (performs plan resolutions) (completeSync crypto plan resolutions) world
        rest after) : Rounds crypto performs plan world after
  | next {plan later : SyncPlan} {resolutions : List ConflictResolution}
      {world middle after : World} {result : SyncResult}
      (hround : Reaches (performs plan resolutions) (completeSync crypto plan resolutions) world
        (.pure (.ok result)) middle)
      (hopen : SyncPlan.fromLateConflicts result = some later)
      (hrest : Rounds crypto performs later middle after) : Rounds crypto performs plan world after

/-- Anything may fail; a round with nothing outstanding at the path ends before
its checkpoint. -/
def Pending (context : Context) (path : String) (plan : SyncPlan)
    (resolutions : List ConflictResolution) (effect : Effect) (before : World)
    (reply : effect.Reply) (after : World) : Prop :=
  Faulty context effect before reply after ∧
    (Outstanding path plan resolutions ∨ ∀ manifest, effect ≠ .saveBase manifest)

/-- The next plan takes a path up as a transfer or a conflict, unless the folder
already has the server's version, and never uploads it. -/
def TakenUp (context : Context) (world : World) (path : String) : Prop :=
  ∀ plan after, Reaches (Faulty context) (prepareSync context.crypto context.ignore) world
    (.pure (.ok plan)) after →
    path ∉ plan.upload.map SyncAction.path ∧
      (path ∈ plan.download.map SyncAction.path ∨ path ∈ plan.conflicts.map Conflict.path ∨
        localVersion context world path = version (listed context world.server path))

/-- Every transfer of the plan was made or is left, and one that is left keeps
its checkpoint entry through all rounds; as long as the server has the version
the plan saw, the next plan takes it up, whatever the user does to the folder. -/
def StaysPending (context : Context)
    (performs : String → SyncPlan → List ConflictResolution →
      (effect : Effect) → World → effect.Reply → World → Prop) (start : World) : Prop :=
  ∀ plan prepared, Reaches (Faulty context) (prepareSync context.crypto context.ignore) start
    (.pure (.ok plan)) prepared → ∀ action ∈ plan.download,
    (Delivered context start.server action.path prepared ∨ Left action.path plan) ∧
    (Left action.path plan → ∀ after,
      Rounds context.crypto (performs action.path) plan prepared after →
      after.device.base[action.path]? = start.device.base[action.path]? ∧
      (version (listed context after.server action.path) =
          version (listed context start.server action.path) →
        ∀ folder, TakenUp context (after.edit folder) action.path))

theorem takenUp (hideal : context.crypto.Ideal) {world : World} (htidy : Tidy context world)
    {path : String} (hseen : context.ignore.isIgnored path = false)
    (hne : version (listed context world.server path) ≠ version world.device.base[path]?) :
    TakenUp context world path := by
  intro plan after hreaches
  have hprepare := holds_prepare hideal (fun _ _ _ _ hperform => hperform)
    (⟨htidy, rfl⟩ : Kept context path world.device.base[path]? world)
  obtain ⟨_, hplan⟩ := hprepare.reaches (fun _ => rfl) hreaches
  exact (hplan plan rfl).1.pending hseen hne

/-- The rounds keep the checkpoint entry of a path whose transfer is left. -/
theorem Rounds.kept (hideal : context.crypto.Ideal) {path : String} {entry : Option FileEntry}
    {plan : SyncPlan} {world after : World}
    (hrounds : Rounds context.crypto (Pending context path) plan world after)
    (hkept : Kept context path entry world) : Kept context path entry after := by
  have hround : ∀ {plan resolutions world rest after}, Kept context path entry world →
      Reaches (Pending context path plan resolutions)
        (completeSync context.crypto plan resolutions) world rest after →
      Kept context path entry after := by
    intro plan resolutions world rest after hkept hreaches
    have houtstanding : Outstanding path plan resolutions ∨ ∀ manifest before reply after,
        ¬ Pending context path plan resolutions (.saveBase manifest) before reply after := by
      by_cases houtstanding : Outstanding path plan resolutions
      · exact Or.inl houtstanding
      · refine Or.inr fun manifest _ _ _ hperform => ?_
        exact (hperform.2.resolve_left houtstanding) manifest rfl
    have hcomplete := holds_complete hideal (fun _ _ _ _ hperform => hperform.1) houtstanding hkept
    exact hcomplete.reaches_inv (fun _ => rfl) (Kept context path entry)
      (fun _ _ _ _ hafter => hafter) hkept hreaches
  induction hrounds with
  | cut hreaches => exact hround hkept hreaches
  | next hreaches _ _ ih => exact ih (hround hkept hreaches)

/-- A transfer that failed, or was never started, stays pending through every
resolution round that does not write its checkpoint over it. -/
theorem failed_transfer_stays_pending (hideal : context.crypto.Ideal) {start : World}
    (htidy : Tidy context start) : StaysPending context (Pending context) start := by
  intro plan prepared hprepare action hmem
  have hholds := holds_prepare hideal (fun _ _ _ _ hperform => hperform)
    (⟨htidy, rfl⟩ : Kept context action.path start.device.base[action.path]? start)
  obtain ⟨hkept, hplan⟩ := hholds.reaches (fun _ => rfl) hprepare
  obtain ⟨hplanned, hdelivered⟩ := hplan plan rfl
  obtain ⟨hseen, hne, _⟩ := hplanned.download hmem
  refine ⟨hdelivered action hmem, ?_⟩
  intro _ after hrounds
  obtain ⟨hafter, hbase⟩ := hrounds.kept hideal hkept
  refine ⟨hbase, ?_⟩
  intro hsame folder
  have hedited : Tidy context (after.edit folder) := hafter.of_same rfl rfl
  refine takenUp hideal hedited hseen ?_
  change version (listed context after.server action.path) ≠ version after.device.base[action.path]?
  rw [hsame, hbase]
  exact hne

/-! ## A download that fails while another conflict is open -/

/-- A first version of a path, from another device. -/
def firstPut (path : String) (content : Bytes) : BatchOp :=
  .put path none (Crypto.sample.contentHmac content) (Crypto.sample.encrypt Aead.zeroNonce content)

/-- The server after two such puts. -/
def newerServer : Server.State :=
  let serve := fun op server => ((callOf sampleContext {} op).serve Server.sampleConfig server).2
  serve (firstPut "c" [2]) (serve (firstPut "a" [2]) emptyWorld.server)

/-- The server has a newer `a`, and a `c` this device never saw. -/
def staleWorld : World where
  device := { folder := (oneFile "a" [1]).insert "c" ⟨[1], 1⟩, cache := none
              base := (∅ : Manifest).insert "a" { hash := Crypto.sample.contentHmac [1] } }
  server := newerServer

theorem emptyWorld_tidy : Tidy sampleContext emptyWorld := by
  refine ⟨⟨?_, ?_, ?_⟩, ?_⟩
  · intro token entry hentry
    simp [emptyWorld, Server.emptyVault] at hentry
  · intro path entry hentry
    simp [remoteAt, emptyWorld, Server.emptyVault] at hentry
  · intro path entry hentry
    simp [remoteAt, emptyWorld, Server.emptyVault] at hentry
  · intro cache etag hcache
    cases hcache

theorem staleWorld_tidy : Tidy sampleContext staleWorld := by
  have hideal := sampleContext_ideal.crypto
  have hfirst := emptyWorld_tidy.serve hideal {} (firstPut "a" [2])
  exact (hfirst.serve hideal {} (firstPut "c" [2])).of_same rfl rfl

/-- The disk is full when the content of `a` has arrived. -/
def fullDisk : Env := { fault := some (.device (.io "No space left on device (os error 28)")) }

/-- The prepare whose download of `a` fails. -/
def staleRun : Eff (Except SyncEngineError SyncPlan) × World :=
  exec (handle sampleContext) (prepareSync .sample .defaults)
    (List.replicate 8 ({} : Env) ++ [fullDisk]) staleWorld

def stalePlan : SyncPlan := (staleRun.1.result?.bind Except.toOption).getD ⟨[], [], [], []⟩

/-- A round that leaves `c` open. -/
def deferRound (plan : SyncPlan) (world : World) :
    Eff (Except SyncEngineError SyncResult) × World :=
  exec (handle sampleContext) (completeSync .sample plan [⟨"c", .defer⟩])
    (List.replicate 5 {}) world

def deferResult (plan : SyncPlan) (world : World) : SyncResult :=
  ((deferRound plan world).1.result?.bind Except.toOption).getD ⟨[], [], [], [], none⟩

theorem performs_faulty (context : Context) (env : Env) (effect : Effect) (world : World) :
    Faulty context effect world (handle context env effect world).1
      (handle context env effect world).2 :=
  ⟨env, trivial, rfl⟩

theorem staleRun_reaches : Reaches (Faulty sampleContext)
    (prepareSync sampleContext.crypto sampleContext.ignore) staleWorld (.pure (.ok stalePlan))
    staleRun.2 := by
  have hresult : staleRun.1.result? = some (.ok stalePlan) := by decide +kernel
  rw [← Prog.eq_pure_of_result? hresult]
  exact Prog.exec_reaches_any (performs_faulty sampleContext) _ _ _

theorem failed_download_of_sample_stays_pending :
    (deferRound stalePlan staleRun.2).1.result?.isSome = true ∧
      (deferRound stalePlan staleRun.2).2.device.base["a"]? = staleWorld.device.base["a"]? ∧
      ∀ folder, TakenUp sampleContext ((deferRound stalePlan staleRun.2).2.edit folder) "a" := by
  have hfacts : (∃ action ∈ stalePlan.download, action.path = "a") ∧
      "a" ∈ stalePlan.failures.map SyncFailure.path ∧
      (deferRound stalePlan staleRun.2).1.result?.isSome = true ∧
      version (listed sampleContext (deferRound stalePlan staleRun.2).2.server "a") =
        version (listed sampleContext staleWorld.server "a") := by
    decide +kernel
  obtain ⟨⟨action, hmem, hpath⟩, hfailed, hresult, hsame⟩ := hfacts
  have hpending := (failed_transfer_stays_pending sampleContext_ideal.crypto staleWorld_tidy
    stalePlan staleRun.2 staleRun_reaches action hmem).2
  rw [hpath] at hpending
  have hround : Rounds sampleContext.crypto (Pending sampleContext "a") stalePlan staleRun.2
      (deferRound stalePlan staleRun.2).2 := by
    refine .cut (Prog.exec_reaches_any ?_ _ _ _)
    intro env effect world
    exact ⟨performs_faulty sampleContext env effect world, Or.inl (Or.inl (Or.inl hfailed))⟩
  obtain ⟨hbase, htaken⟩ := hpending (Or.inl hfailed) _ hround
  exact ⟨hresult, hbase, htaken hsame⟩

/-- What the round on the plan leaves open, as the next plan. -/
def reopened : SyncPlan :=
  (SyncPlan.fromLateConflicts (deferResult stalePlan staleRun.2)).getD stalePlan

/-- The second round on `c` knows nothing of the failed download of `a`: its
checkpoint takes the server's version of `a` for synced, and the next plan sends
the old content over it. -/
theorem second_round_forgets_failed_download_of_sample :
    (¬ ∀ context start, context.crypto.Ideal → Tidy context start →
      StaysPending context (fun _ _ _ => Faulty context) start) ∧
    "a" ∈ (((exec (handle sampleContext) (prepareSync .sample .defaults) (List.replicate 8 {})
      (deferRound reopened (deferRound stalePlan staleRun.2).2).2).1.result?.bind
        Except.toOption).elim [] SyncPlan.upload).map SyncAction.path := by
  have hfacts : (∃ action ∈ stalePlan.download, action.path = "a") ∧
      "a" ∈ stalePlan.failures.map SyncFailure.path ∧
      (deferRound stalePlan staleRun.2).1.result? = some (.ok (deferResult stalePlan staleRun.2)) ∧
      SyncPlan.fromLateConflicts (deferResult stalePlan staleRun.2) = some reopened ∧
      (deferRound reopened (deferRound stalePlan staleRun.2).2).2.device.base["a"]? ≠
        staleWorld.device.base["a"]? := by
    decide +kernel
  obtain ⟨⟨action, hmem, hpath⟩, hfailed, hresult, hopen, hmoved⟩ := hfacts
  refine ⟨fun hall => ?_, by decide +kernel⟩
  have hpending := (hall sampleContext staleWorld sampleContext_ideal.crypto staleWorld_tidy
    stalePlan staleRun.2 staleRun_reaches action hmem).2
  rw [hpath] at hpending
  have hfirst : Reaches (Faulty sampleContext)
      (completeSync sampleContext.crypto stalePlan [⟨"c", .defer⟩]) staleRun.2
      (.pure (.ok (deferResult stalePlan staleRun.2))) (deferRound stalePlan staleRun.2).2 := by
    rw [← Prog.eq_pure_of_result? hresult]
    exact Prog.exec_reaches_any (performs_faulty sampleContext) _ _ _
  have hsecond : Rounds sampleContext.crypto (fun _ _ => Faulty sampleContext) reopened
      (deferRound stalePlan staleRun.2).2
        (deferRound reopened (deferRound stalePlan staleRun.2).2).2 :=
    .cut (Prog.exec_reaches_any (performs_faulty sampleContext) _ _ _)
  exact hmoved (hpending (Or.inl hfailed) _ (.next hfirst hopen hsecond)).1

end ObSink.Engine
