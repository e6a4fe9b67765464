import ObSink.Engine.Devices
import ObSink.Engine.Sound

/-! # What a write of one device replaces

A put or a delete names the version it replaces, and the server refuses it when
another one is there. That version is the base's unless the user was asked, and
the base is what a checkpoint found on the server. So no version is replaced
unseen as long as checkpoints find there only what the device knows, and no
deleted version comes back under an upload that was planned over its tombstone.
-/

namespace ObSink.Engine

open Prog (Holds Process Rules Contract Step Within exec execAll perform holds_bind holds_perform
  holds_pure within_bind within_perform within_pure)

variable {ι : Type}

/-! ## The condition -/

/-- What a manifest shows at a path the device follows, and does not hold back, is
not news to it. -/
def Familiar (fleet : Fleet ι) (i : ι) (holdBack : List String) (own : Party)
    (manifest : Manifest) : Prop :=
  ∀ path hash, version manifest[path]? = .present hash → path ∉ holdBack →
    (fleet.ignore i).isIgnored path = false → own.Knows fleet.crypto path hash

/-- A checkpoint that asks for the manifest finds nothing new, and an upload that
was planned over a tombstone does not find its version back. -/
def Careful (fleet : Fleet ι) (i : ι) (effect : Effect) (world : Server.State × Party) : Prop :=
  match effect, world.2.stop with
  | .getManifest _, .uploaded holdBack =>
      ∀ manifest, decodeManifest fleet.crypto world.1.vault.files = .ok manifest →
        Familiar fleet i holdBack world.2 manifest
  | .applyOp op, .resolved _ answered =>
      ∀ action ∈ answered.uploads, action.path = op.path → version action.remoteEntry = .gone →
        ∀ hash, parentHash action = some hash →
          version world.1.vault.files[fleet.crypto.pathToken op.path]? = .present hash →
            world.2.Knows fleet.crypto op.path hash
  | _, _ => True

/-- One operation that meets the condition. -/
def ActsCarefully (fleet : Fleet ι) (i : ι) (effect : Effect) (before : Server.State × Party)
    (reply : effect.Reply) (after : Server.State × Party) : Prop :=
  Operates fleet i effect before reply after ∧ Careful fleet i effect before

/-- The devices in their cycles, when every operation meets the condition. Any operation may
fail. -/
def carefully (fleet : Fleet ι) : Rules Effect Effect.Reply Server.State Party ι Stop where
  performs := fun i effect before reply after =>
    ∃ own, before.2.Edited own ∧ ActsCarefully fleet i effect (before.1, own) reply after
  begins := GoesOn fleet
  outside := fun _ _ => False

/-- What an accepted write replaces is not news to the device, when the write is done. -/
def ReplacesKnown (fleet : Fleet ι) (before after : Server.State × Party) :
    (effect : Effect) → effect.Reply → Prop
  | .applyOp op, .ok (.written _) =>
      ∀ hash, version before.1.vault.files[fleet.crypto.pathToken op.path]? = .present hash →
        after.2.Knows fleet.crypto op.path hash
  | _, _ => True

/-! ## What a device knows -/

/-- What a device has seen since. -/
structure Party.Since (own later : Party) : Prop where
  folders : own.folders ⊆ later.folders
  insisted : own.insisted ⊆ later.insisted

namespace Party

theorem Since.knows {crypto : Crypto} {own later : Party} (hsince : own.Since later)
    {path hash : String} (hknows : own.Knows crypto path hash) : later.Knows crypto path hash := by
  rcases hknows with ⟨folder, hfolder, hfile⟩ | ⟨conflict, hconflict, hversion⟩
  · exact .inl ⟨folder, hsince.folders hfolder, hfile⟩
  · exact .inr ⟨conflict, hsince.insisted hconflict, hversion⟩

theorem Since.trans {first second third : Party} (hfirst : first.Since second)
    (hsecond : second.Since third) : first.Since third where
  folders := List.Subset.trans hfirst.folders hsecond.folders
  insisted := List.Subset.trans hfirst.insisted hsecond.insisted

theorem since_note (own : Party) (effect : Effect) (reply : effect.Reply) (device : Device) :
    own.Since (own.note effect reply device) where
  folders := List.subset_cons_self _ _
  insisted := List.subset_append_left _ _

theorem since_edit (own : Party) (folder : Folder) : own.Since (own.edit folder) where
  folders := List.subset_cons_self _ _
  insisted := List.Subset.refl _

/-- Edits leave everything but the folder as it is. -/
structure Untouched (own own' : Party) : Prop where
  since : own.Since own'
  base : own'.device.base = own.device.base
  cache : own'.device.cache = own.device.cache
  stop : own'.stop = own.stop

theorem Edited.untouched {own own' : Party} (hedited : own.Edited own') : own.Untouched own' := by
  obtain ⟨folders, rfl⟩ := hedited
  induction folders generalizing own with
  | nil => exact ⟨⟨List.Subset.refl _, List.Subset.refl _⟩, rfl, rfl, rfl⟩
  | cons folder rest ih =>
      obtain ⟨hsince, hbase, hcache, hstop⟩ := @ih (own.edit folder)
      exact ⟨(own.since_edit folder).trans hsince, hbase, hcache, hstop⟩

@[simp] theorem note_device (own : Party) (effect : Effect) (reply : effect.Reply)
    (device : Device) :
    (own.note effect reply device).device = device := rfl

@[simp] theorem note_stop (own : Party) (effect : Effect) (reply : effect.Reply) (device : Device) :
    (own.note effect reply device).stop = own.stop := rfl

end Party

/-- What holds of a device now and later on. -/
def Lasting (fact : Party → Prop) : Prop :=
  ∀ own later, own.Since later → later.stop = own.stop → fact own → fact later

/-- Each of the uploads goes over a version that is not news. -/
def Licensed (crypto : Crypto) (uploads : List SyncAction) (own : Party) : Prop :=
  ∀ action ∈ uploads, ∀ hash, version action.remoteEntry = .present hash →
    own.Knows crypto action.path hash

theorem Licensed.lasting (crypto : Crypto) (uploads : List SyncAction) :
    Lasting (Licensed crypto uploads) :=
  fun _ _ hsince _ hlicensed action hmem hash hversion =>
    hsince.knows (hlicensed action hmem hash hversion)

/-! ## A device in good order -/

/-- A copy of the manifest with a tag is that of the revision the tag names. -/
def TrueCopy (fleet : Fleet ι) (server : Server.State) (cache : RemoteManifestCache) : Prop :=
  ∀ etag, cache.etag = some etag → ∃ revision, etag = Server.etagOf revision ∧
    revision ≤ server.vault.revision ∧ (server.vault.revision = revision →
      decodeManifest fleet.crypto server.vault.files = .ok cache.manifest)

theorem TrueCopy.proceeds {fleet : Fleet ι} {before after : Server.State}
    {cache : RemoteManifestCache} (hcopy : TrueCopy fleet before cache)
    (hproceeds : Proceeds before after) : TrueCopy fleet after cache := by
  intro etag hetag
  obtain ⟨revision, hrevision, hle, hdecode⟩ := hcopy etag hetag
  refine ⟨revision, hrevision, hle.trans hproceeds.revision, ?_⟩
  intro hcurrent
  have hsame : before.vault.revision = revision :=
    le_antisymm (hcurrent ▸ hproceeds.revision) hle
  rw [hproceeds.files (hcurrent.trans hsame.symm)]
  exact hdecode hsame

/-- The base has no news, the cache is a true copy, and live rows have a hash. -/
structure Sane (fleet : Fleet ι) (i : ι) (world : Server.State × Party) : Prop where
  base : Familiar fleet i [] world.2 world.2.device.base
  cache : ∀ cache, world.2.device.cache = some cache → TrueCopy fleet world.1 cache
  hashed : Hashed world.1

theorem Familiar.since {fleet : Fleet ι} {i : ι} {holdBack : List String} {own later : Party}
    {manifest : Manifest} (hfamiliar : Familiar fleet i holdBack own manifest)
    (hsince : own.Since later) : Familiar fleet i holdBack later manifest :=
  fun path hash hversion hfree hfollowed =>
    hsince.knows (hfamiliar path hash hversion hfree hfollowed)

/-- What a stop brings along. -/
def Stop.Ready (crypto : Crypto) (own : Party) : Stop → Prop
  | .planned plan => Licensed crypto plan.upload own
  | .resolved _ answered => Licensed crypto answered.uploads own
  | .idle | .uploaded _ => True

theorem Stop.Ready.since {crypto : Crypto} {own later : Party} {stop : Stop}
    (hready : stop.Ready crypto own) (hsince : own.Since later) : stop.Ready crypto later := by
  cases stop with
  | idle => trivial
  | planned plan =>
      exact fun action hmem hash hversion => hsince.knows (hready action hmem hash hversion)
  | resolved plan answered =>
      exact fun action hmem hash hversion => hsince.knows (hready action hmem hash hversion)
  | uploaded holdBack => trivial

/-- What a device owes the others, and what a part of its cycle ends with. -/
def overtaking (fleet : Fleet ι) : Contract (carefully fleet) where
  rely := fun _ => Proceeds
  guarantee := fun _ before effect reply after =>
    Proceeds before.1 after.1 ∧ ReplacesKnown fleet before after effect reply
  post := fun i stop world => Sane fleet i world ∧ stop.Ready fleet.crypto world.2

section Device

variable {fleet : Fleet ι} {i : ι}

theorem Sane.rely {before : Server.State} {own : Party} (hsane : Sane fleet i (before, own))
    {after : Server.State} (hproceeds : Proceeds before after) : Sane fleet i (after, own) where
  base := hsane.base
  cache := fun cache hcache => (hsane.cache cache hcache).proceeds hproceeds
  hashed := hproceeds.hashed hsane.hashed

theorem Sane.edited {server : Server.State} {own own' : Party}
    (hsane : Sane fleet i (server, own)) (huntouched : own.Untouched own') :
    Sane fleet i (server, own') where
  base := by
    simp only [huntouched.base]
    exact hsane.base.since huntouched.since
  cache := by
    simp only [huntouched.cache]
    exact hsane.cache
  hashed := hsane.hashed

/-- An operation that leaves the bookkeeping as it is. -/
def Effect.Keeps : Effect → Prop
  | .saveRemoteCache _ | .saveBase _ => False
  | _ => True

theorem handle_keeps (context : Context) (env : Env) {effect : Effect} (hkeeps : effect.Keeps)
    (world : World) :
    (handle context env effect world).2.device.base = world.device.base ∧
      (handle context env effect world).2.device.cache = world.device.cache := by
  have hchange : ∀ device : Device, device.base = world.device.base →
      device.cache = world.device.cache →
      (env.change world device).2.device.base = world.device.base ∧
        (env.change world device).2.device.cache = world.device.cache := by
    intro device hbase hcache
    rcases env.change_device world device with hdone | hkept
    · rw [hdone]
      exact ⟨hbase, hcache⟩
    · rw [hkept]
      exact ⟨rfl, rfl⟩
  cases effect with
  | saveRemoteCache cache => exact hkeeps.elim
  | saveBase manifest => exact hkeeps.elim
  | applyOp op => exact ⟨rfl, rfl⟩
  | writeFile path content => exact hchange _ rfl rfl
  | deleteLocalFile path =>
      simp only [handle]
      split
      next => exact ⟨rfl, rfl⟩
      next => exact hchange _ rfl rfl
  | loadRemoteCache =>
      simp only [handle]
      split <;> exact ⟨rfl, rfl⟩
  | statFile path =>
      simp only [handle]
      split <;> exact ⟨rfl, rfl⟩
  | sealFile path =>
      simp only [handle]
      split <;> exact ⟨rfl, rfl⟩
  | _ => exact ⟨rfl, rfl⟩

theorem handle_proceeds (context : Context) (env : Env) (effect : Effect) (world : World) :
    Proceeds world.server (handle context env effect world).2.server := by
  by_cases hop : ∃ op, effect = .applyOp op
  · obtain ⟨op, rfl⟩ := hop
    exact proceeds_serve _ _ _
  · rw [handle_server context env (fun op heq => hop ⟨op, heq⟩) world]
    exact .refl _

/-- What every operation but the saving ones keeps. -/
theorem Sane.act {effect : Effect} (hkeeps : effect.Keeps) {before after : Server.State × Party}
    {reply : effect.Reply} (hacts : Operates fleet i effect before reply after)
    (hsane : Sane fleet i before) :
    Proceeds before.1 after.1 ∧ Sane fleet i after ∧ before.2.Since after.2 ∧
      after.2.stop = before.2.stop := by
  obtain ⟨env, device, hhandle, hnoted⟩ := hacts
  obtain ⟨hbase, hcache⟩ := handle_keeps (fleet.context i) env hkeeps ⟨before.2.device, before.1⟩
  have hproceeds := handle_proceeds (fleet.context i) env effect ⟨before.2.device, before.1⟩
  rw [hhandle] at hbase hcache hproceeds
  obtain ⟨server, own⟩ := after
  simp only at hnoted hbase hcache hproceeds
  subst hnoted
  have hsince := before.2.since_note effect reply device
  refine ⟨hproceeds, ⟨?_, ?_, hproceeds.hashed hsane.hashed⟩, hsince, rfl⟩
  · simp only [Party.note_device, hbase]
    exact hsane.base.since hsince
  · simp only [Party.note_device, hcache]
    exact fun cache hsome => (hsane.cache cache hsome).proceeds hproceeds

/-- A part made of such operations, none of them a write. -/
theorem holds_keeping {α : Type} {allowed : Effect → Prop}
    (hallowed : ∀ effect, allowed effect → effect.Keeps ∧ ∀ op, effect ≠ .applyOp op)
    {post : α → Prop} {prog : Eff α} (hwithin : Within allowed post prog) {fact : Party → Prop}
    (hlasting : Lasting fact) {world : Server.State × Party} (hsane : Sane fleet i world)
    (hfact : fact world.2) :
    Holds ((overtaking fleet).setting i)
      (fun value after => (Sane fleet i after ∧ fact after.2) ∧ post value) prog world := by
  apply hwithin.holds
  · rintro ⟨before, own⟩ ⟨after, own'⟩ ⟨hproceeds, hown⟩ ⟨hsane, hfact⟩
    obtain rfl : own' = own := hown
    exact ⟨hsane.rely hproceeds, hfact⟩
  · rintro effect hop ⟨before, own⟩ reply after ⟨hsane, hfact⟩ ⟨edited, hedited, hacts⟩
    obtain ⟨hkeeps, hwrites⟩ := hallowed effect hop
    have huntouched := hedited.untouched
    obtain ⟨hproceeds, hafter, hsince, hstop⟩ := (hsane.edited huntouched).act hkeeps hacts.1
    have hnow := hlasting _ _ huntouched.since huntouched.stop hfact
    refine ⟨⟨hproceeds, ?_⟩, hafter, hlasting _ _ hsince hstop hnow⟩
    unfold ReplacesKnown
    split
    next op entry => exact absurd rfl (hwrites op)
    next => trivial
  · exact ⟨hsane, hfact⟩

/-- An operation of a device that was in a world: what others and its user have done by then,
and what it does. -/
structure Advances (fleet : Fleet ι) (i : ι) (effect : Effect) (world before : Server.State × Party)
    (reply : effect.Reply) (after : Server.State × Party) : Prop where
  proceeds : Proceeds world.1 before.1
  saneBefore : Sane fleet i before
  acts : ActsCarefully fleet i effect before reply after
  sane : Sane fleet i after
  sinceBefore : before.2.Since after.2
  since : world.2.Since after.2
  stopBefore : after.2.stop = before.2.stop
  stop : after.2.stop = world.2.stop

/-- One such operation. -/
theorem holds_keeping_one {effect : Effect} (hkeeps : effect.Keeps)
    (hwrites : ∀ op, effect ≠ .applyOp op) {post : effect.Reply → Server.State × Party → Prop}
    {world : Server.State × Party} (hsane : Sane fleet i world)
    (hpost : ∀ before reply after, Advances fleet i effect world before reply after →
      post reply after) :
    Holds ((overtaking fleet).setting i) post (perform effect) world := by
  rintro ⟨before, own⟩ ⟨hproceeds, hown⟩ reply after ⟨edited, hedited, hacts⟩
  obtain rfl : own = world.2 := hown
  have huntouched := hedited.untouched
  have hbefore := (hsane.rely hproceeds).edited huntouched
  obtain ⟨hafterwards, hafter, hsince, hstop⟩ := hbefore.act hkeeps hacts.1
  refine ⟨⟨hafterwards, ?_⟩, hpost (before, edited) reply after ⟨hproceeds, hbefore, hacts, hafter,
    hsince, huntouched.since.trans hsince, hstop, hstop.trans huntouched.stop⟩⟩
  unfold ReplacesKnown
  split
  next op entry => exact absurd rfl (hwrites op)
  next => trivial

/-! ## The manifest -/

/-- What a checkpoint may take over; other parts of a cycle take over nothing. -/
def Taken (fleet : Fleet ι) (i : ι) (own : Party) (manifest : Manifest) : Prop :=
  ∀ holdBack, own.stop = .uploaded holdBack → Familiar fleet i holdBack own manifest

theorem Taken.since {own later : Party} {manifest : Manifest} (htaken : Taken fleet i own manifest)
    (hsince : own.Since later) (hstop : later.stop = own.stop) : Taken fleet i later manifest :=
  fun holdBack hlater => (htaken holdBack (hstop ▸ hlater)).since hsince

/-- The manifest of the rows a request met. -/
theorem taken_of_careful {header : Option String} {before after : Server.State × Party}
    {reply : (Effect.getManifest header).Reply}
    (hacts : ActsCarefully fleet i (.getManifest header) before reply after) (manifest : Manifest)
    (hdecode : decodeManifest fleet.crypto before.1.vault.files = .ok manifest) :
    Taken fleet i before.2 manifest := by
  intro holdBack hstop
  have hcareful := hacts.2
  simp only [Careful, hstop] at hcareful
  exact hcareful manifest hdecode

/-- What is known of a manifest call's answer. -/
def Answers (fleet : Fleet ι) (i : ι) (cached : Option RemoteManifestCache)
    (header : Option String) (answer : Except ApiError ManifestFetch)
    (world : Server.State × Party) : Prop :=
  match answer with
  | .error _ => True
  | .ok .notModified => header.isSome = true ∧ ∀ cache, cached = some cache →
      Taken fleet i world.2 cache.manifest
  | .ok (.modified manifest etag) => Taken fleet i world.2 manifest ∧
      TrueCopy fleet world.1 { etag, manifest }

theorem holds_getManifestIfChanged_taken {cached : Option RemoteManifestCache}
    {world : Server.State × Party} {stop : Stop} (hsane : Sane fleet i world)
    (hstop : world.2.stop = stop)
    (htagged : ∀ cache, cached = some cache → cache.etag.isSome = true)
    (hcopy : ∀ cache, cached = some cache → TrueCopy fleet world.1 cache) :
    Holds ((overtaking fleet).setting i)
      (fun answer after => Sane fleet i after ∧ after.2.stop = stop ∧ world.2.Since after.2 ∧
        Answers fleet i cached (cached.bind RemoteManifestCache.etag) answer after)
      (getManifestIfChanged fleet.crypto (cached.bind RemoteManifestCache.etag)) world := by
  rw [getManifestIfChanged, holds_bind]
  apply holds_keeping_one (show Effect.Keeps (.getManifest _) from trivial) (by simp) hsane
  intro before reply after hadvances
  have hafter := hadvances.sane
  have hsince := hadvances.since
  have hnow := hadvances.stop.trans hstop
  have htaken := taken_of_careful hadvances.acts
  obtain ⟨env, device, hhandle, hnoted⟩ := hadvances.acts.1
  simp only [handle, Prod.mk.injEq, World.mk.injEq] at hhandle
  obtain ⟨hreply, -, hserver⟩ := hhandle
  rcases manifest_answers env before.1.vault (fleet.userId i)
      (cached.bind RemoteManifestCache.etag) with
    ⟨error, hanswer⟩ | ⟨hhit, hanswer⟩ | hanswer
  · obtain rfl := hreply.symm.trans hanswer
    exact ⟨hafter, hnow, hsince, trivial⟩
  · obtain rfl := hreply.symm.trans hanswer
    -- only a copy with a tag can hit, and then it is the manifest of the rows
    cases hcached : cached with
    | none =>
        rw [hcached] at hhit
        cases hhit
    | some cache =>
        obtain ⟨etag, hetag⟩ := Option.isSome_iff_exists.mp (htagged cache hcached)
        obtain ⟨revision, rfl, -, hdecode⟩ :=
          (hcopy cache hcached).proceeds hadvances.proceeds etag hetag
        rw [hcached, Option.bind_some, hetag, Server.ifNoneMatchHits_etagOf] at hhit
        refine ⟨hafter, hnow, hsince, by simp [hetag], ?_⟩
        intro other hother
        obtain rfl := Option.some.inj hother
        exact (htaken _ (hdecode hhit.symm)).since hadvances.sinceBefore hadvances.stopBefore
  · obtain rfl := hreply.symm.trans hanswer
    cases hdecode : decodeManifest fleet.crypto before.1.vault.files with
    | error error =>
        simp only [hdecode]
        exact ⟨hafter, hnow, hsince, trivial⟩
    | ok manifest =>
        simp only [hdecode]
        refine ⟨hafter, hnow, hsince,
          (htaken manifest hdecode).since hadvances.sinceBefore hadvances.stopBefore, ?_⟩
        intro etag hetag
        obtain rfl := Option.some.inj hetag
        rw [← hserver]
        exact ⟨_, rfl, le_rfl, fun _ => hdecode⟩

/-- A new copy becomes the cache, or fails to. -/
theorem holds_saveRemoteCache_taken {cache : RemoteManifestCache} {world : Server.State × Party}
    (hsane : Sane fleet i world) (hcopy : TrueCopy fleet world.1 cache) :
    Holds ((overtaking fleet).setting i)
      (fun _ after => Sane fleet i after ∧ after.2.stop = world.2.stop ∧ world.2.Since after.2)
      (perform (Effect.saveRemoteCache cache)) world := by
  rintro ⟨before, own⟩ ⟨hproceeds, hown⟩ reply ⟨after, own'⟩
    ⟨edited, hedited, ⟨env, device, hhandle, hnoted⟩, -⟩
  obtain rfl : own = world.2 := hown
  have huntouched := hedited.untouched
  have hbefore := (hsane.rely hproceeds).edited huntouched
  simp only at hhandle hnoted
  subst hnoted
  have hsince := edited.since_note (Effect.saveRemoteCache cache) reply device
  have hserver := env.change_server ⟨edited.device, before⟩
    { edited.device with cache := some cache }
  have hdevice := env.change_device ⟨edited.device, before⟩
    { edited.device with cache := some cache }
  simp only [handle] at hhandle
  rw [hhandle] at hserver hdevice
  simp only at hserver hdevice
  subst hserver
  have hbase : device.base = edited.device.base := by
    rcases hdevice with rfl | rfl <;> rfl
  have hcache : device.cache = some cache ∨ device.cache = edited.device.cache :=
    hdevice.imp (congrArg Device.cache) (congrArg Device.cache)
  refine ⟨⟨.refl _, trivial⟩, ⟨?_, ?_, hbefore.hashed⟩, huntouched.stop,
    huntouched.since.trans hsince⟩
  · simp only [Party.note_device, hbase]
    exact hbefore.base.since hsince
  · simp only [Party.note_device]
    intro other hother
    rcases hcache with hnew | hold
    · obtain rfl := Option.some.inj (hnew.symm.trans hother)
      exact hcopy.proceeds hproceeds
    · exact hbefore.cache other (hold ▸ hother)

/-- A copy that is read back is the one in the cache. -/
theorem trueCopy_of_loaded {before after : Server.State × Party}
    {loaded : Option RemoteManifestCache} (hsane : Sane fleet i before)
    (hacts : Operates fleet i .loadRemoteCache before loaded after) {cache : RemoteManifestCache}
    (hloaded : loaded = some cache) : TrueCopy fleet after.1 cache := by
  obtain ⟨env, device, hhandle, hnoted⟩ := hacts
  simp only [handle] at hhandle
  split at hhandle
  next stored hstored =>
    obtain ⟨rfl, hworld⟩ := Prod.mk.inj hhandle
    obtain ⟨-, hserver⟩ := World.mk.inj hworld
    rw [← hserver]
    unfold Env.onDevice at hstored
    split at hstored
    next => cases hstored
    next => exact hsane.cache cache ((Except.ok.inj hstored).trans hloaded)
  next =>
    obtain ⟨rfl, -⟩ := Prod.mk.inj hhandle
    cases hloaded

/-- A whole `fetchRemoteManifest`. -/
theorem holds_fetchRemoteManifest_taken {world : Server.State × Party}
    (hsane : Sane fleet i world) :
    Holds ((overtaking fleet).setting i)
      (fun result after =>
        Sane fleet i after ∧ after.2.stop = world.2.stop ∧ world.2.Since after.2 ∧
        ∀ manifest, result = .ok manifest → Taken fleet i after.2 manifest)
      (fetchRemoteManifest fleet.crypto) world := by
  rw [fetchRemoteManifest, holds_bind]
  apply holds_keeping_one (show Effect.Keeps .loadRemoteCache from trivial) (by simp) hsane
  intro before loaded read hadvances
  have hsince := hadvances.since
  simp only [holds_bind]
  generalize hcached : loaded.filter (fun cache => cache.etag.isSome) = cached
  have htagged : ∀ cache, cached = some cache → cache.etag.isSome = true := by
    intro cache hsome
    exact (Option.filter_eq_some_iff.mp (hcached.trans hsome)).2
  apply (holds_getManifestIfChanged_taken hadvances.sane hadvances.stop htagged fun cache hsome =>
    trueCopy_of_loaded hadvances.saneBefore hadvances.acts.1
      (Option.filter_eq_some_iff.mp (hcached.trans hsome)).1).mono
  rintro answer asked ⟨hasked, hstop, hlater, hanswer⟩
  rcases answer with error | ⟨manifest, etag⟩ | _
  · refine ⟨hasked, hstop, hsince.trans hlater, ?_⟩
    intro manifest hresult
    cases hresult
  · obtain ⟨htaken, htrue⟩ := hanswer
    simp only
    split
    next =>
      rw [holds_bind]
      apply (holds_saveRemoteCache_taken hasked htrue).mono
      rintro saved after ⟨hafter, hkept, hend⟩
      refine ⟨hafter, hkept.trans hstop, (hsince.trans hlater).trans hend, ?_⟩
      intro found hfound
      obtain rfl := Except.ok.inj hfound
      exact htaken.since hend hkept
    next =>
      refine ⟨hasked, hstop, hsince.trans hlater, ?_⟩
      intro found hfound
      obtain rfl := Except.ok.inj hfound
      exact htaken
  · cases cached with
    | none => cases hanswer.1
    | some cache =>
        refine ⟨hasked, hstop, hsince.trans hlater, ?_⟩
        intro manifest hresult
        obtain rfl := Except.ok.inj hresult
        exact hanswer.2 cache rfl

/-! ## The parts of a cycle -/

theorem licensed_of_diff {own : Party} {base : Manifest} (hbase : Familiar fleet i [] own base)
    (working remote : Manifest) :
    Licensed fleet.crypto (diffLocalAndRemote base working remote (fleet.ignore i)).upload own := by
  intro action hmem hash hversion
  have hdecision := mem_diff_upload.mp hmem
  rw [decisionAt, decide3_eq] at hdecision
  split at hdecision
  next => cases hdecision
  next =>
    split at hdecision
    next => cases hdecision
    next =>
      split at hdecision
      next hunchanged =>
        -- the server's side is still the base's
        have hentry := congrArg SyncAction.remoteEntry (Decision.upload.inj hdecision)
        simp only at hentry
        rw [← hentry, hunchanged, keep_getElem?] at hversion
        split at hversion
        next => simp [version] at hversion
        next hfollowed => exact hbase action.path hash hversion (by simp) (by simpa using hfollowed)
      next => cases hdecision

theorem holds_prepareSync_ready {world : Server.State × Party} (hsane : Sane fleet i world) :
    Holds ((overtaking fleet).setting i)
      (fun result after => Sane fleet i after ∧
        ∀ plan, result = .ok plan → Licensed fleet.crypto plan.upload after.2)
      (prepareSync fleet.crypto (fleet.ignore i)) world := by
  rw [prepareSync, holds_bind]
  apply holds_keeping_one (show Effect.Keeps .loadLocalState from trivial) (by simp) hsane
  intro before loaded walked hadvances
  have hwalked := hadvances.sane
  obtain ⟨env, device, hhandle, -⟩ := hadvances.acts.1
  rcases loaded with error | ⟨base, folder, now⟩
  · exact ⟨hwalked, fun plan hplan => by cases hplan⟩
  have hbase : Familiar fleet i [] walked.2 base := by
    have hread := congrArg Prod.fst hhandle
    simp only [handle, Env.onDevice] at hread
    split at hread
    next => cases hread
    next =>
      obtain ⟨rfl, -⟩ := Prod.mk.inj (Except.ok.inj hread)
      exact hadvances.saneBefore.base.since hadvances.sinceBefore
  simp only [holds_bind]
  apply (holds_fetchRemoteManifest_taken hwalked).mono
  rintro result fetched ⟨hfetched, -, hlater, -⟩
  cases result with
  | error error => exact ⟨hfetched, fun plan hplan => by cases hplan⟩
  | ok remote =>
      simp only [holds_bind]
      have hlicensed := licensed_of_diff (hbase.since hlater)
        (buildWorkingManifest fleet.crypto (fleet.ignore i) now folder base) remote
      apply (holds_keeping _ (applyDownloads_downloads _ _) (Licensed.lasting _ _) hfetched
        hlicensed).mono
      · rintro failures after ⟨⟨hafter, hstill⟩, -⟩
        refine ⟨hafter, ?_⟩
        intro plan hplan
        obtain rfl := Except.ok.inj hplan
        exact hstill
      · intro effect hdownloads
        cases effect with
        | deleteLocalFile path => exact ⟨trivial, by simp⟩
        | pick => exact ⟨trivial, by simp⟩
        | getFile path => exact ⟨trivial, by simp⟩
        | writeFile path content => exact ⟨trivial, by simp⟩
        | _ => exact hdownloads.elim

/-- The user keeps the local side of the conflict. -/
def Insists (resolutions : List ConflictResolution) (conflict : Conflict) : Prop :=
  resolutionFor resolutions conflict.path = some .keepLocal ∨
    resolutionFor resolutions conflict.path = some .keepBoth

/-- An upload of the round: one there was before, the local side of a conflict
that the user insists on, or a copy, which goes over nothing. -/
def FromRound (resolutions : List ConflictResolution) (uploads : List SyncAction)
    (conflicts : List Conflict) (action : SyncAction) : Prop :=
  action ∈ uploads ∨ (∃ conflict ∈ conflicts, Insists resolutions conflict ∧
    action = conflictToUpload conflict) ∨ action.remoteEntry = none

/-- An operation of an answer. -/
def Effect.Answer : Effect → Prop
  | .getFile _ | .writeFile _ _ | .deleteLocalFile _ | .statFile _ => True
  | _ => False

theorem fetchTo_answer (crypto : Crypto) (path target : String) :
    Within Effect.Answer (fun _ => True) (fetchTo crypto path target) := by
  rw [fetchTo, within_bind, within_perform]
  refine ⟨trivial, ?_⟩
  intro reply
  cases reply with
  | error error => trivial
  | ok blob =>
      simp only [decryptAndWrite]
      split
      next => trivial
      next => exact ⟨trivial, fun _ => trivial⟩

theorem applyKeepRemote_answer (crypto : Crypto) (conflict : Conflict) :
    Within Effect.Answer (fun _ => True) (applyKeepRemote crypto conflict) := by
  unfold applyKeepRemote
  split
  next => exact ⟨trivial, fun _ => trivial⟩
  next => exact fetchTo_answer crypto _ _

theorem writeConflictCopy_answer (crypto : Crypto) (conflict : Conflict) :
    Within Effect.Answer (fun _ => True) (writeConflictCopy crypto conflict) := by
  rw [writeConflictCopy, within_bind]
  apply (fetchTo_answer crypto _ _).mono
  intro reply _
  cases reply <;> trivial

theorem insists_of_effective {resolutions : List ConflictResolution} {conflict : Conflict}
    {choice kept : ConflictResolutionChoice}
    (hanswer : resolutionFor resolutions conflict.path = some choice)
    (hkept : effectiveChoice choice conflict = kept)
    (hlocal : kept = .keepLocal ∨ kept = .keepBoth) :
    Insists resolutions conflict := by
  unfold Insists
  rw [hanswer]
  cases choice with
  | keepLocal => exact .inl rfl
  | keepBoth => exact .inr rfl
  | keepRemote =>
      subst hkept
      simp [effectiveChoice] at hlocal
  | defer =>
      subst hkept
      simp [effectiveChoice] at hlocal

theorem applyResolution_fromRound (crypto : Crypto) (resolutions : List ConflictResolution)
    (resolved : Resolved) (conflict : Conflict) :
    Within Effect.Answer (fun result => ∀ next, result = .ok next → ∀ action ∈ next.uploads,
        FromRound resolutions resolved.uploads [conflict] action)
      (applyResolution crypto resolutions resolved conflict) := by
  have hfailed : ∀ (error : SyncEngineError) (next : Resolved), Except.error error = .ok next →
      ∀ action ∈ next.uploads, FromRound resolutions resolved.uploads [conflict] action :=
    fun _ _ hnext => by cases hnext
  unfold applyResolution
  cases hanswer : resolutionFor resolutions conflict.path with
  | none => exact hfailed _
  | some choice =>
      simp only
      split
      next =>
        intro next hnext action hmem
        obtain rfl := Except.ok.inj hnext
        exact .inl hmem
      -- keepLocal: an upload of the conflict
      next hkept =>
        intro next hnext action hmem
        obtain rfl := Except.ok.inj hnext
        rcases List.mem_append.mp hmem with hold | hnew
        · exact .inl hold
        · exact .inr (.inl ⟨conflict, by simp, insists_of_effective hanswer hkept (.inl rfl),
            List.mem_singleton.mp hnew⟩)
      next =>
        rw [within_bind]
        apply (applyKeepRemote_answer crypto conflict).mono
        intro reply _
        cases reply with
        | error error => exact hfailed error
        | ok value =>
            intro next hnext action hmem
            obtain rfl := Except.ok.inj hnext
            exact .inl hmem
      -- keepBoth: that, and the copy, which no version stands behind
      next hkept =>
        rw [within_bind]
        apply (writeConflictCopy_answer crypto conflict).mono
        intro reply _
        cases reply with
        | error error => exact hfailed error
        | ok duplicatePath =>
            simp only [buildUploadActionForPath, within_bind, within_perform]
            refine ⟨trivial, ?_⟩
            intro stat
            cases stat with
            | error error => exact hfailed error
            | ok file =>
                intro next hnext action hmem
                obtain rfl := Except.ok.inj hnext
                rcases List.mem_append.mp hmem with hold | hnew
                · exact .inl hold
                · rcases List.mem_cons.mp hnew with rfl | hlast
                  · exact .inr (.inl ⟨conflict, by simp,
                      insists_of_effective hanswer hkept (.inr rfl), rfl⟩)
                  · rw [List.mem_singleton.mp hlast]
                    exact .inr (.inr rfl)

theorem applyResolutions_fromRound (crypto : Crypto) (resolutions : List ConflictResolution)
    (conflicts : List Conflict) (resolved : Resolved) :
    Within Effect.Answer (fun result => ∀ final, result = .ok final → ∀ action ∈ final.uploads,
        FromRound resolutions resolved.uploads conflicts action)
      (applyResolutions crypto resolutions conflicts resolved) := by
  induction conflicts generalizing resolved with
  | nil =>
      intro final hfinal action hmem
      obtain rfl := Except.ok.inj hfinal
      exact .inl hmem
  | cons conflict rest ih =>
      rw [applyResolutions, within_bind]
      apply (applyResolution_fromRound crypto resolutions resolved conflict).mono
      intro result hstep
      cases result with
      | error error => exact fun final hfinal => by cases hfinal
      | ok next =>
          apply (ih next).mono
          intro result hrest final hfinal action hmem
          rcases hrest final hfinal action hmem with
            hbefore | ⟨later, hlater, hinsists, heq⟩ | hnone
          · rcases hstep next rfl action hbefore with hold | ⟨found, hfound, hinsists, heq⟩ | hnone
            · exact .inl hold
            · obtain rfl := List.mem_singleton.mp hfound
              exact .inr (.inl ⟨found, List.mem_cons_self, hinsists, heq⟩)
            · exact .inr (.inr hnone)
          · exact .inr (.inl ⟨later, List.mem_cons_of_mem _ hlater, hinsists, heq⟩)
          · exact .inr (.inr hnone)

/-- The user's answers, and what they license. -/
theorem holds_answers_ready {plan : SyncPlan} {world : Server.State × Party}
    (hsane : Sane fleet i world) (hplan : Licensed fleet.crypto plan.upload world.2) :
    Holds ((overtaking fleet).setting i)
      (fun stop after => Sane fleet i after ∧ stop.Ready fleet.crypto after.2)
      (Stop.part fleet.crypto (fleet.ignore i) (.planned plan)) world := by
  rw [Stop.part, holds_bind]
  apply holds_keeping_one (show Effect.Keeps (.ask _) from trivial) (by simp) hsane
  intro before resolutions asked hadvances
  -- the party notes what its user insists on when the answers come in
  have hinsisted : ∀ conflict ∈ plan.conflicts, Insists resolutions conflict →
      conflict ∈ asked.2.insisted := by
    intro conflict hmem hinsists
    obtain ⟨env, device, -, hnoted⟩ := hadvances.acts.1
    rw [hnoted]
    apply List.mem_append_right
    simp only [insistedBy, List.mem_filter, Bool.or_eq_true, decide_eq_true_eq]
    exact ⟨hmem, hinsists⟩
  rw [holds_bind]
  have hlasting : Lasting fun own => Licensed fleet.crypto plan.upload own ∧
      ∀ conflict ∈ plan.conflicts, Insists resolutions conflict → conflict ∈ own.insisted := by
    rintro own later hlater hstop ⟨hlicensed, hkept⟩
    exact ⟨Licensed.lasting _ _ own later hlater hstop hlicensed,
      fun conflict hmem hinsists => hlater.insisted (hkept conflict hmem hinsists)⟩
  have hplanned : Licensed fleet.crypto plan.upload asked.2 :=
    fun action hmem hash hversion => hadvances.since.knows (hplan action hmem hash hversion)
  apply (holds_keeping _ (applyResolutions_fromRound _ resolutions plan.conflicts _) hlasting
    hadvances.sane ⟨hplanned, hinsisted⟩).mono
  · rintro result after ⟨⟨hafter, hlicensed, hkept⟩, hround⟩
    cases result with
    | error error => exact ⟨hafter, trivial⟩
    | ok answered =>
        refine ⟨hafter, ?_⟩
        intro action hmem hash hversion
        rcases hround answered rfl action hmem with
          hold | ⟨conflict, hconflict, hinsists, rfl⟩ | hnone
        · exact hlicensed action hold hash hversion
        · right
          refine ⟨conflict, hkept conflict hconflict hinsists, rfl, ?_⟩
          simp only [conflictToUpload, version] at hversion
          split at hversion
          next => cases hversion
          next hlive => exact ⟨by simpa using hlive, Version.present.inj hversion⟩
        · rw [hnone] at hversion
          cases hversion
  · intro effect hanswer
    cases effect with
    | getFile path => exact ⟨trivial, by simp⟩
    | writeFile path content => exact ⟨trivial, by simp⟩
    | deleteLocalFile path => exact ⟨trivial, by simp⟩
    | statFile path => exact ⟨trivial, by simp⟩
    | _ => exact hanswer.elim

/-! ## The uploads -/

/-- The operation that carries an upload out. -/
def OpFor (op : BatchOp) (action : SyncAction) : Prop :=
  (∃ hash content, op = .put action.path (parentHash action) hash content) ∨
    op = .delete action.path (parentHash action)

/-- An operation of the upload phase that carries out these uploads. -/
def Effect.CarriesOut (uploads : List SyncAction) : Effect → Prop
  | .applyOp op => ∃ action ∈ uploads, OpFor op action
  | .sealFile _ | .sendBatch | .receiveBatch | .readBatch => True
  | _ => False

theorem Effect.Sends.carriesOut {uploads : List SyncAction} {ops : List BatchOp}
    (hops : ∀ op ∈ ops, ∃ action ∈ uploads, OpFor op action) {effect : Effect}
    (hsends : effect.Sends ops) : effect.CarriesOut uploads := by
  cases effect with
  | applyOp op => exact hops op hsends
  | sendBatch => trivial
  | receiveBatch => trivial
  | readBatch => trivial
  | _ => exact hsends.elim

theorem prepareBatchOp_carries (uploads : List SyncAction) (action : SyncAction) :
    Within (Effect.CarriesOut uploads)
      (fun result => ∀ op, result = .ok (some op) → OpFor op action)
      (prepareBatchOp action) := by
  unfold prepareBatchOp
  cases action.kind with
  | upload =>
      simp only [within_bind, within_perform]
      refine ⟨trivial, ?_⟩
      intro reply
      cases reply with
      | error error => exact fun op hop => by cases hop
      | ok content =>
          intro op hop
          obtain rfl := Option.some.inj (Except.ok.inj hop)
          exact .inl ⟨_, content, rfl⟩
  | deleteRemote =>
      intro op hop
      obtain rfl := Option.some.inj (Except.ok.inj hop)
      exact .inr rfl
  | download => exact fun op hop => by cases hop
  | deleteLocal => exact fun op hop => by cases hop

theorem prepareBatch_carries (uploads : List SyncAction) {actions : List SyncAction}
    (hactions : actions ⊆ uploads) (outcome : UploadOutcome) :
    Within (Effect.CarriesOut uploads)
      (fun prepared => ∀ member ∈ prepared.1, ∃ action ∈ uploads, OpFor member.2 action)
      (prepareBatch actions outcome) := by
  induction actions generalizing outcome with
  | nil => exact fun member hmem => by cases hmem
  | cons action rest ih =>
      have hrest : rest ⊆ uploads := fun later hlater => hactions (List.mem_cons_of_mem _ hlater)
      rw [prepareBatch, within_bind]
      apply (prepareBatchOp_carries uploads action).mono
      intro result hcarries
      rcases result with error | _ | op
      · exact ih hrest _
      · exact ih hrest _
      · simp only [within_bind, within_pure]
        apply (ih hrest outcome).mono
        intro prepared hprepared member hmem
        rcases List.mem_cons.mp hmem with rfl | hlater
        · exact ⟨action, hactions List.mem_cons_self, hcarries _ rfl⟩
        · exact hprepared member hlater

theorem runBatches_carries (uploads : List SyncAction) {groups : List (List SyncAction)}
    (hgroups : ∀ actions ∈ groups, actions ⊆ uploads) (outcome : UploadOutcome) :
    Within (Effect.CarriesOut uploads) (fun _ => True) (runBatches groups outcome) := by
  induction groups generalizing outcome with
  | nil => trivial
  | cons actions rest ih =>
      have hlater : ∀ done, Within (Effect.CarriesOut uploads) (fun _ => True)
          (runBatches rest done) :=
        ih fun later hlater => hgroups later (List.mem_cons_of_mem _ hlater)
      simp only [runBatches, runBatch, within_bind]
      apply (prepareBatch_carries uploads (hgroups actions List.mem_cons_self) outcome).mono
      intro prepared hprepared
      split
      next => exact hlater _
      next =>
        rw [within_bind]
        have hops : ∀ op ∈ prepared.1.map Prod.snd, ∃ action ∈ uploads, OpFor op action := by
          intro op hop
          obtain ⟨member, hmember, rfl⟩ := List.mem_map.mp hop
          exact hprepared member hmember
        apply ((batch_sends _ _).weaken fun effect hsends => hsends.carriesOut hops).mono
        intro answer _
        cases answer with
        | error error =>
            simp only [within_pure]
            split
            next => trivial
            next => exact hlater _
        | ok results =>
            simp only [within_pure]
            split
            next => trivial
            next => exact hlater _

theorem runUploads_carries (uploads : List SyncAction) (holdBack : List String) :
    Within (Effect.CarriesOut uploads) (fun _ => True) (runUploads uploads holdBack) :=
  runBatches_carries uploads batches_subset _

/-- An accepted write names the live version it replaces. -/
theorem parent_of_written {context : Context} {server : Server.State} (hhashed : Hashed server)
    {op : BatchOp} {action : SyncAction} (hop : OpFor op action) {env : Env} {device : Device}
    {entry : FileEntry}
    (hreply : (handle context env (.applyOp op) ⟨device, server⟩).1 = .ok (.written entry))
    {hash : String}
    (hrow : version server.vault.files[context.crypto.pathToken op.path]? = .present hash) :
    parentHash action = some hash := by
  have hwrites := Server.writes_of_serve hreply
  rw [callOf_path] at hwrites
  cases hentry : server.vault.files[context.crypto.pathToken op.path]? with
  | none =>
      rw [hentry] at hrow
      cases hrow
  | some row =>
      have hgate : row.hash = (parentHash action).getD "" := by
        rcases hop with ⟨_, content, rfl⟩ | rfl
        · exact hwrites.2 row hentry
        · exact hwrites.2 row hentry
      have hversion : row.hash = hash := by
        rw [hentry] at hrow
        simp only [version] at hrow
        split at hrow
        next => cases hrow
        next => exact Version.present.inj hrow
      rw [hversion] at hgate
      cases hparent : parentHash action with
      | none =>
          rw [hparent] at hgate
          obtain rfl : hash = "" := hgate
          exact absurd hrow (hhashed _)
      | some parent =>
          rw [hparent] at hgate
          exact congrArg some hgate.symm

theorem parentHash_of_present {action : SyncAction} {found hash : String}
    (hremote : version action.remoteEntry = .present found)
    (hparent : parentHash action = some hash) : found = hash := by
  cases hentry : action.remoteEntry with
  | none =>
      rw [hentry] at hremote
      cases hremote
  | some remote =>
      simp only [hentry, version] at hremote
      split at hremote
      next => cases hremote
      next =>
        simp only [parentHash, hentry, Option.map_some, Option.filter_eq_some_iff,
          Option.some.injEq] at hparent
        exact (Version.present.inj hremote).symm.trans hparent.1

/-- What holds while a device is in its uploads. -/
structure Uploading (fleet : Fleet ι) (i : ι) (plan : SyncPlan) (answered : Resolved)
    (world : Server.State × Party) : Prop where
  sane : Sane fleet i world
  stop : world.2.stop = .resolved plan answered
  licensed : Licensed fleet.crypto answered.uploads world.2

/-- The row an accepted write replaces is the one it names. -/
theorem replaces_known {plan : SyncPlan} {answered : Resolved} {op : BatchOp} {entry : FileEntry}
    {before after : Server.State × Party} (hbefore : Uploading fleet i plan answered before)
    {action : SyncAction} (hmem : action ∈ answered.uploads) (hop : OpFor op action)
    (hacts : ActsCarefully fleet i (.applyOp op) before (.ok (.written entry)) after)
    {hash : String}
    (hrow : version before.1.vault.files[fleet.crypto.pathToken op.path]? = .present hash) :
    before.2.Knows fleet.crypto op.path hash := by
  obtain ⟨⟨env, device, hhandle, -⟩, hcareful⟩ := hacts
  have hpath : op.path = action.path := by
    rcases hop with ⟨content, sealed, rfl⟩ | rfl <;> rfl
  have hparent := parent_of_written hbefore.sane.hashed hop (congrArg Prod.fst hhandle) hrow
  cases hremote : version action.remoteEntry with
  | gone =>
      simp only [Careful, hbefore.stop] at hcareful
      exact hcareful action hmem hpath.symm hremote hash hparent hrow
  | present found =>
      obtain rfl := parentHash_of_present hremote hparent
      rw [hpath]
      exact hbefore.licensed action hmem found hremote

theorem holds_uploads_ready {plan : SyncPlan} {answered : Resolved} {world : Server.State × Party}
    (hstart : Uploading fleet i plan answered world) :
    Holds ((overtaking fleet).setting i)
      (fun stop after => Sane fleet i after ∧ stop.Ready fleet.crypto after.2)
      (Stop.part fleet.crypto (fleet.ignore i) (.resolved plan answered)) world := by
  rw [Stop.part, holds_bind]
  refine ((runUploads_carries answered.uploads _).holds ?_ ?_ hstart).mono ?_
  · rintro ⟨before, own⟩ ⟨after, own'⟩ ⟨hproceeds, hown⟩ hbefore
    obtain rfl : own' = own := hown
    exact ⟨hbefore.sane.rely hproceeds, hbefore.stop, hbefore.licensed⟩
  · rintro effect hcarries ⟨before, own⟩ reply after hstill ⟨edited, hedited, hacts⟩
    have huntouched := hedited.untouched
    have hbefore : Uploading fleet i plan answered (before, edited) :=
      ⟨hstill.sane.edited huntouched, huntouched.stop.trans hstill.stop,
        Licensed.lasting _ _ _ _ huntouched.since huntouched.stop hstill.licensed⟩
    have hkeeps : effect.Keeps := by
      cases effect with
      | saveRemoteCache cache => exact hcarries.elim
      | saveBase manifest => exact hcarries.elim
      | _ => trivial
    obtain ⟨hproceeds, hafter, hsince, hkept⟩ := hbefore.sane.act hkeeps hacts.1
    refine ⟨⟨hproceeds, ?_⟩, hafter, hkept.trans hbefore.stop,
      Licensed.lasting _ _ _ _ hsince hkept hbefore.licensed⟩
    cases effect with
    | applyOp op =>
        obtain ⟨action, hmem, hop⟩ := hcarries
        rcases reply with error | _ | entry
        · trivial
        · trivial
        · exact fun hash hrow => hsince.knows (replaces_known hbefore hmem hop hacts hrow)
    | _ => trivial
  · rintro uploads after ⟨hafter, -⟩
    split <;> exact ⟨hafter.sane, trivial⟩

/-! ## The checkpoint -/

/-- The base is replaced by one without news, or stays. -/
theorem holds_saveBase_familiar {manifest : Manifest} {world : Server.State × Party}
    (hsane : Sane fleet i world) (hfamiliar : Familiar fleet i [] world.2 manifest) :
    Holds ((overtaking fleet).setting i) (fun _ after => Sane fleet i after)
      (perform (Effect.saveBase manifest)) world := by
  rintro ⟨server, own⟩ ⟨hproceeds, hown⟩ reply ⟨after, own'⟩
    ⟨edited, hedited, ⟨env, device, hhandle, hnoted⟩, -⟩
  obtain rfl : own = world.2 := hown
  have huntouched := hedited.untouched
  have hbefore := (hsane.rely hproceeds).edited huntouched
  simp only at hhandle hnoted
  subst hnoted
  have hsince := edited.since_note (Effect.saveBase manifest) reply device
  have hserver := env.change_server ⟨edited.device, server⟩
    { edited.device with base := manifest }
  have hdevice := env.change_device ⟨edited.device, server⟩
    { edited.device with base := manifest }
  simp only [handle] at hhandle
  rw [hhandle] at hserver hdevice
  simp only at hserver hdevice
  subst hserver
  have hcache : device.cache = edited.device.cache := by
    rcases hdevice with rfl | rfl <;> rfl
  have hplaced : device.base = manifest ∨ device.base = edited.device.base :=
    hdevice.imp (congrArg Device.base) (congrArg Device.base)
  refine ⟨⟨.refl _, trivial⟩, ⟨?_, ?_, hbefore.hashed⟩⟩
  · simp only [Party.note_device]
    rcases hplaced with hnew | hold
    · rw [hnew]
      exact hfamiliar.since (huntouched.since.trans hsince)
    · rw [hold]
      exact hbefore.base.since hsince
  · simp only [Party.note_device, hcache]
    exact hbefore.cache

theorem holds_checkpoint_ready {holdBack : List String} {world : Server.State × Party}
    (hsane : Sane fleet i world) (hstop : world.2.stop = .uploaded holdBack) :
    Holds ((overtaking fleet).setting i) (fun _ after => Sane fleet i after)
      (checkpoint fleet.crypto holdBack) world := by
  rw [checkpoint, holds_bind]
  apply (holds_fetchRemoteManifest_taken hsane).mono
  rintro result fetched ⟨hfetched, hnow, -, htaken⟩
  cases result with
  | error error => exact hfetched
  | ok remote =>
      have hremote := htaken remote rfl holdBack (hnow.trans hstop)
      simp only [holds_bind]
      apply holds_keeping_one (show Effect.Keeps .loadBase from trivial) (by simp) hfetched
      intro before loaded read hadvances
      have hread := hadvances.sane
      cases loaded with
      | error error => exact hread
      | ok previousBase =>
          have hbase : Familiar fleet i [] read.2 previousBase := by
            obtain ⟨env, device, hhandle, -⟩ := hadvances.acts.1
            have hloaded := congrArg Prod.fst hhandle
            simp only [handle, Env.onDevice] at hloaded
            split at hloaded
            next => cases hloaded
            next =>
              obtain rfl := Except.ok.inj hloaded
              exact hadvances.saneBefore.base.since hadvances.sinceBefore
          -- a path that is held back keeps its base, another one takes over the rows'
          have hnext :
              Familiar fleet i [] read.2 (checkpointManifest previousBase remote holdBack) := by
            intro path hash hversion _ hfollowed
            rw [checkpointManifest_getElem?] at hversion
            split at hversion
            next => exact hbase path hash hversion (by simp) hfollowed
            next hfree => exact hadvances.since.knows (hremote path hash hversion hfree hfollowed)
          exact holds_saveBase_familiar hread hnext

end Device

/-! ## Every run -/

theorem overtaking_sound (fleet : Fleet ι) : (overtaking fleet).Sound where
  rely_refl := fun _ => Proceeds.refl
  rely_trans := fun _ _ _ _ => Proceeds.trans
  post_rely := by
    rintro i stop before after own hproceeds ⟨hsane, hready⟩
    exact ⟨hsane.rely hproceeds, hready⟩
  others := fun _ _ _ _ _ _ _ hguarantee => hguarantee.1
  outside := fun _ _ _ houtside => houtside.elim
  begins := by
    rintro i stop world process ⟨hsane, hready⟩ rfl
    have hstart : Sane fleet i (world.1, { world.2 with stop }) :=
      ⟨hsane.base, hsane.cache, hsane.hashed⟩
    cases stop with
    | idle =>
        simp only [Stop.part, holds_bind]
        apply (holds_prepareSync_ready hstart).mono
        rintro result after ⟨hafter, hlicensed⟩
        cases result with
        | error error => exact ⟨hafter, trivial⟩
        | ok plan => exact ⟨hafter, hlicensed plan rfl⟩
    | planned plan => exact holds_answers_ready hstart hready
    | resolved plan answered => exact holds_uploads_ready ⟨hstart, rfl, hready⟩
    | uploaded holdBack =>
        simp only [Stop.part, holds_bind]
        exact (holds_checkpoint_ready hstart rfl).mono fun _ after hafter => ⟨hafter, trivial⟩

/-- A device before its first cycle. -/
def Party.Fresh (own : Party) : Prop := own.device.base = ∅ ∧ own.device.cache = none

/-- In every run of devices that start fresh, in any order of their operations, edits
and failures, with checkpoints and uploads over tombstones as the condition says: no
accepted write replaces a version that is news to the device it comes from, by what its
folder has held and its user has been asked until then. -/
theorem replaced_versions_are_known [DecidableEq ι] {fleet : Fleet ι}
    {pool after : Prog.Pool Effect Effect.Reply Server.State Party ι Stop}
    (hfresh : ∀ i, (pool.procs i).prog = .pure .idle ∧ (pool.procs i).own.Fresh)
    (hhashed : Hashed pool.shared)
    (hrun : Relation.ReflTransGen (Step (carefully fleet)) pool after) {i : ι} {op : BatchOp}
    {next : (Effect.applyOp op).Reply → Eff Stop} {own : Party}
    (hproc : after.procs i = ⟨.act (.applyOp op) next, own⟩) {entry : FileEntry}
    {later : Server.State × Party}
    (hwritten : (carefully fleet).performs i (.applyOp op) (after.shared, own)
      (.ok (.written entry)) later) {hash : String}
    (hrow : version after.shared.vault.files[fleet.crypto.pathToken op.path]? = .present hash) :
    later.2.Knows fleet.crypto op.path hash := by
  have hstart : (overtaking fleet).Kept pool := by
    intro i
    obtain ⟨hidle, hbase, hcache⟩ := hfresh i
    rw [hidle]
    refine ⟨⟨?_, ?_, hhashed⟩, trivial⟩
    · intro path hash hversion
      simp [hbase, version] at hversion
    · intro cache hsome
      rw [hcache] at hsome
      cases hsome
  have hhere := (overtaking_sound fleet).run hstart hrun i
  rw [hproc] at hhere
  exact (hhere (after.shared, own) ⟨.refl _, rfl⟩ _ later hwritten).1.2 hash hrow

/-! ## A small run -/

/-- One device, in a vault that has another file under the name of its own. -/
def loneFleet : Fleet Unit := ⟨.sample, Server.sampleConfig, fun _ => "user_1", fun _ => .defaults⟩

/-- A pool of the one device, wherever it stands. -/
def lonePool (point : Eff Stop × (Server.State × Party)) :
    Prog.Pool Effect Effect.Reply Server.State Party Unit Stop :=
  ⟨point.2.1, fun _ => ⟨point.1, point.2.2⟩⟩

def loneStart : Eff Stop × (Server.State × Party) :=
  (.pure .idle, Server.settled Server.sampleConfig Server.freshState noteCalls,
    { device := sampleWorld.device })

theorem lonePool_update (point next : Eff Stop × (Server.State × Party)) :
    ⟨next.2.1, Function.update (lonePool point).procs () ⟨next.1, next.2.2⟩⟩ = lonePool next := by
  simp only [lonePool, Prog.Pool.mk.injEq, true_and]
  funext i
  exact Function.update_self ..

/-- One operation of the device. -/
def operate (env : Env) (effect : Effect) (world : Server.State × Party) :
    effect.Reply × (Server.State × Party) :=
  let result := handle (loneFleet.context ()) env effect ⟨world.2.device, world.1⟩
  (result.1, result.2.server, world.2.note effect result.1 result.2.device)

/-- No checkpoint yet, and no upload over a tombstone. -/
def plainly (_ : Env) (effect : Effect) (world : Server.State × Party) : Bool :=
  match effect, world.2.stop with
  | .getManifest _, .uploaded _ => false
  | .applyOp _, .resolved _ answered => answered.uploads.all fun action =>
      version action.remoteEntry != .gone
  | _, _ => true

theorem performs_operate (env : Env) (effect : Effect) (world : Server.State × Party)
    (hplainly : plainly env effect world = true) :
    (carefully loneFleet).performs () effect world (operate env effect world).1
      (operate env effect world).2 := by
  have hcareful : Careful loneFleet () effect world := by
    unfold Careful
    split
    next holdBack _ hstop => simp [plainly, hstop] at hplainly
    next op plan answered hstop =>
      simp only [plainly, hstop, List.all_eq_true, bne_iff_ne, ne_eq] at hplainly
      exact fun action hmem _ hgone => absurd hgone (hplainly action hmem)
    next => trivial
  exact ⟨world.2, ⟨[], rfl⟩, ⟨env, _, rfl, rfl⟩, hcareful⟩

/-- The next part of the cycle, as far as the environments last. -/
def stage (envs : List Env) (point : Eff Stop × (Server.State × Party)) :
    Eff Stop × (Server.State × Party) :=
  match point.1 with
  | .pure stop => exec operate (stop.part .sample .defaults) envs
      (point.2.1, { point.2.2 with stop })
  | .act _ _ => point

def stageChecks (envs : List Env) (point : Eff Stop × (Server.State × Party)) : Bool :=
  match point.1 with
  | .pure stop => execAll operate plainly (stop.part .sample .defaults) envs
      (point.2.1, { point.2.2 with stop })
  | .act _ _ => true

theorem reaches_stage {envs : List Env} {point : Eff Stop × (Server.State × Party)}
    (hchecks : stageChecks envs point = true) :
    Relation.ReflTransGen (Step (carefully loneFleet)) (lonePool point)
      (lonePool (stage envs point)) := by
  obtain ⟨prog, server, own⟩ := point
  cases prog with
  | act effect next => exact .refl
  | pure stop =>
      have hbegin : Step (carefully loneFleet) (lonePool (.pure stop, server, own))
          (lonePool (stop.part .sample .defaults, server, { own with stop })) := by
        have hproc : (lonePool (.pure stop, server, own)).procs () = ⟨.pure stop, own⟩ := rfl
        have hgoes : (carefully loneFleet).begins () stop (server, own)
            ⟨stop.part .sample .defaults, { own with stop }⟩ := rfl
        rw [← lonePool_update (.pure stop, server, own)]
        exact .start hproc hgoes
      have hrun := Prog.exec_reaches performs_operate hchecks
      refine .head hbegin ?_
      rw [← lonePool_update (stop.part .sample .defaults, server, { own with stop })]
      exact hrun.pool rfl rfl

/-- The operation of a batch that comes next. -/
def applying? : Eff Stop → Option BatchOp
  | .act (.applyOp op) _ => some op
  | _ => none

theorem eq_act_of_applying? {prog : Eff Stop} {op : BatchOp}
    (happlying : applying? prog = some op) :
    ∃ next, prog = .act (.applyOp op) next := by
  unfold applying? at happlying
  split at happlying
  next next =>
    obtain rfl := Option.some.inj happlying
    exact ⟨next, rfl⟩
  next => cases happlying

/-- The device is about to upload the side its user kept. -/
def loneKept : Eff Stop × (Server.State × Party) :=
  stage [{}, {}]
    (stage [{ answers := [⟨"note", .keepLocal⟩] }] (stage (List.replicate 4 {}) loneStart))

/-- The other file is replaced, and the user knows. -/
theorem replaced_is_known_in_sample :
    ∃ after op own entry later hash,
      Relation.ReflTransGen (Step (carefully loneFleet)) (lonePool loneStart) after ∧
      (∃ next, after.procs () = ⟨.act (.applyOp op) next, own⟩) ∧
      (carefully loneFleet).performs () (.applyOp op) (after.shared, own) (.ok (.written entry))
        later ∧
      version after.shared.vault.files[Crypto.sample.pathToken op.path]? = .present hash ∧
      later.2.Knows .sample op.path hash := by
  have hrun : Relation.ReflTransGen (Step (carefully loneFleet)) (lonePool loneStart)
      (lonePool loneKept) :=
    ((reaches_stage (by decide +kernel)).trans (reaches_stage (by decide +kernel))).trans
      (reaches_stage (by decide +kernel))
  have hwrites : (applying? loneKept.1).any (fun op =>
      plainly {} (.applyOp op) loneKept.2 &&
        (operate {} (.applyOp op) loneKept.2).1.toOption.any (· != .alreadyThere) &&
        version loneKept.2.1.vault.files[Crypto.sample.pathToken op.path]? ==
          .present (Crypto.sample.contentHmac [2])) = true := by
    decide +kernel
  obtain ⟨op, happlying, hchecks⟩ := (Option.any_eq_true _ _).mp hwrites
  simp only [Bool.and_eq_true, beq_iff_eq] at hchecks
  obtain ⟨⟨hplainly, hwritten⟩, hrow⟩ := hchecks
  obtain ⟨next, hprog⟩ := eq_act_of_applying? happlying
  have hproc : (lonePool loneKept).procs () = ⟨.act (.applyOp op) next, loneKept.2.2⟩ := by
    simp [lonePool, hprog]
  have hperform := performs_operate {} (.applyOp op) loneKept.2 hplainly
  cases hreply : (operate {} (.applyOp op) loneKept.2).1 with
  | error error => simp [hreply, Except.toOption] at hwritten
  | ok outcome =>
      cases outcome with
      | alreadyThere => simp [hreply, Except.toOption] at hwritten
      | written entry =>
          rw [hreply] at hperform
          have hhashed : Hashed loneStart.2.1 :=
            (proceeds_settled _ _ _).hashed fun token => by
              simp [Server.freshState, Server.emptyVault, version]
          have hknows := replaced_versions_are_known (fun _ => ⟨rfl, rfl, rfl⟩) hhashed hrun
            hproc hperform hrow
          exact ⟨_, op, _, entry, _, _, hrun, ⟨next, hproc⟩, hperform, hrow, hknows⟩

end ObSink.Engine
