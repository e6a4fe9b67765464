import ObSink.Engine.Rows
import ObSink.Lib.Parallel

/-! # The conditional manifest fetch

One folder asks for the manifest through its cache, any number of calls at a
time, while other clients write and the cache may get lost. Every copy of the
manifest, cached or in hand, is that of a committed state of the vault with its
tag; so a tag that hits is that of the current state.
-/

namespace ObSink.Engine

open Prog (Holds Rules Pool Contract Process Step holds_bind holds_perform holds_pure)

/-- The vault at a moment, and how many writes were committed by then. -/
structure Reading where
  vault : Server.Vault
  commits : Nat

/-- The folder and its server. `cachedFrom` is the state the cached copy was
read from. -/
structure Watched where
  world : World
  commits : Nat
  cachedFrom : Option Reading

/-- What one call has seen: the state the copy it holds was read from, and the
state its last request was answered from. -/
structure Seen where
  heldFrom : Option Reading
  answeredFrom : Option Reading

def Watched.reading (watched : Watched) : Reading where
  vault := watched.world.server.vault
  commits := watched.commits

/-- What an operation of a call brings to notice. -/
def noted (watched : Watched) (seen : Seen) :
    (effect : Effect) → effect.Reply → Option Reading × Seen
  | .loadRemoteCache, _ => (watched.cachedFrom, { seen with heldFrom := watched.cachedFrom })
  | .getManifest _, _ => (watched.cachedFrom, { seen with answeredFrom := some watched.reading })
  | .saveRemoteCache _, .ok () => (seen.answeredFrom, seen)
  | _, _ => (watched.cachedFrom, seen)

/-- One operation of a call, whatever fails. -/
def Asks (context : Context) (effect : Effect) (before : Watched × Seen) (reply : effect.Reply)
    (after : Watched × Seen) : Prop :=
  (∃ env, handle context env effect before.1.world = (reply, after.1.world)) ∧
    after.1.commits = before.1.commits ∧
    (after.1.cachedFrom, after.2) = noted before.1 before.2 effect reply

/-- The same, as a function of what the environment brings along. -/
def askOnce (context : Context) (env : Env) (effect : Effect) (before : Watched × Seen) :
    effect.Reply × Watched × Seen :=
  let (reply, world) := handle context env effect before.1.world
  let (cachedFrom, seen) := noted before.1 before.2 effect reply
  (reply, { world, commits := before.1.commits, cachedFrom }, seen)

theorem asks_askOnce (context : Context) (env : Env) (effect : Effect) (before : Watched × Seen) :
    Asks context effect before (askOnce context env effect before).1
      (askOnce context env effect before).2 :=
  ⟨⟨env, rfl⟩, rfl, rfl⟩

/-- How many writes an answer stands for. -/
def committed : Except Server.ApiError Server.Outcome → Nat
  | .ok (.written _) => 1
  | _ => 0

theorem committed_eq_zero {answer : Except Server.ApiError Server.Outcome}
    (hnot : ∀ entry, answer ≠ .ok (.written entry)) : committed answer = 0 := by
  unfold committed
  split
  next entry => exact absurd rfl (hnot entry)
  next => rfl

/-- Another client writes, or the cache gets lost. -/
inductive Meanwhile (context : Context) : Watched → Watched → Prop
  | write (watched : Watched) (call : Server.Call) :
      Meanwhile context watched
        { watched with
          world :=
            { watched.world with server := (call.serve context.server watched.world.server).2 }
          commits :=
            watched.commits + committed (call.serve context.server watched.world.server).1 }
  | lose (watched : Watched) :
      Meanwhile context watched
        { watched with
          world := { watched.world with device := { watched.world.device with cache := none } } }

/-- What the manifest calls of a folder come to. -/
abbrev Fetch := Except SyncEngineError (Manifest ⊕ Bool)

def fetchCall (crypto : Crypto) : Eff Fetch := do
  match ← fetchRemoteManifest crypto with
  | .error error => pure (.error error)
  | .ok manifest => pure (.ok (.inl manifest))

def pollCall (crypto : Crypto) : Eff Fetch := do
  match ← remoteChanged crypto with
  | .error error => pure (.error error)
  | .ok changed => pure (.ok (.inr changed))

/-- A call of the folder, before its first operation. -/
def NewCall (crypto : Crypto) (process : Process Effect Effect.Reply Seen Fetch) : Prop :=
  process.prog = fetchCall crypto ∨ process.prog = pollCall crypto

/-- Calls of one folder, each followed by another, among writes of others. -/
def fetching (context : Context) (ι : Type) : Rules Effect Effect.Reply Watched Seen ι Fetch where
  performs := fun _ => Asks context
  begins := fun _ _ _ process => NewCall context.crypto process
  outside := Meanwhile context

variable {context : Context}

/-! ## Copies and the states they were read from -/

/-- A state the vault has been in: each write since then bumped the revision. -/
structure Past (reading : Reading) (watched : Watched) : Prop where
  earlier : reading.commits ≤ watched.commits
  revision : reading.vault.revision + watched.commits =
    watched.world.server.vault.revision + reading.commits
  same : reading.commits = watched.commits →
    reading.vault.files = watched.world.server.vault.files

theorem Past.now (watched : Watched) : Past watched.reading watched :=
  ⟨le_rfl, rfl, fun _ => rfl⟩

/-- A copy with a tag is the decoded manifest of the state it was read from. -/
def CopyOf (context : Context) (watched : Watched) (cache : RemoteManifestCache)
    (source : Option Reading) : Prop :=
  ∀ etag, cache.etag = some etag → ∃ reading, source = some reading ∧
    etag = Server.etagOf reading.vault.revision ∧
    decodeManifest context.crypto reading.vault.files = .ok cache.manifest ∧ Past reading watched

def Exact (context : Context) (watched : Watched) : Prop :=
  ∀ cache, watched.world.device.cache = some cache →
    CopyOf context watched cache watched.cachedFrom

/-- The vault goes on, and the cache stays exact. -/
structure Evolves (context : Context) (before after : Watched) : Prop where
  exact : Exact context before → Exact context after
  past : ∀ reading, Past reading before → Past reading after

theorem CopyOf.evolves {before after : Watched} {cache : RemoteManifestCache}
    {source : Option Reading} (hcopy : CopyOf context before cache source)
    (hevolves : Evolves context before after) : CopyOf context after cache source := by
  intro etag hetag
  obtain ⟨reading, hsource, htag, hdecode, hpast⟩ := hcopy etag hetag
  exact ⟨reading, hsource, htag, hdecode, hevolves.past reading hpast⟩

theorem Evolves.refl (watched : Watched) : Evolves context watched watched :=
  ⟨id, fun _ => id⟩

theorem Evolves.trans {first second third : Watched} (hfirst : Evolves context first second)
    (hsecond : Evolves context second third) : Evolves context first third :=
  ⟨fun hexact => hsecond.exact (hfirst.exact hexact),
    fun reading hpast => hsecond.past reading (hfirst.past reading hpast)⟩

theorem Past.of_server {reading : Reading} {before after : Watched} (hpast : Past reading before)
    (hserver : after.world.server = before.world.server)
    (hcommits : after.commits = before.commits) : Past reading after := by
  refine ⟨?_, ?_, ?_⟩
  · rw [hcommits]
    exact hpast.earlier
  · rw [hcommits, hserver]
    exact hpast.revision
  · rw [hcommits, hserver]
    exact hpast.same

theorem Meanwhile.evolves {before after : Watched} (hmeanwhile : Meanwhile context before after) :
    Evolves context before after := by
  cases hmeanwhile with
  | lose =>
      refine ⟨?_, fun reading hpast => hpast.of_server rfl rfl⟩
      intro _ cache hcache
      cases hcache
  | write call =>
      have hpast : ∀ reading, Past reading before → Past reading
          { before with
            world := { before.world with
              server := (call.serve context.server before.world.server).2 }
            commits := before.commits +
              committed (call.serve context.server before.world.server).1 } := by
        intro reading hpast
        have hearlier := hpast.earlier
        have hrevision := hpast.revision
        rcases Server.serve_vault context.server call before.world.server with
          ⟨entry, hwritten, hvault⟩ | ⟨hnot, hvault⟩
        · refine ⟨by simp only; omega, ?_, ?_⟩
          · simp only [hvault, hwritten, committed, Server.Vault.upsertEntry]
            omega
          · simp only [hwritten, committed]
            omega
        · refine ⟨by simp only; omega, ?_, ?_⟩
          · simp only [hvault, committed_eq_zero hnot]
            omega
          · simp only [hvault, committed_eq_zero hnot, Nat.add_zero]
            exact hpast.same
      refine ⟨?_, hpast⟩
      intro hexact cache hcache etag hetag
      obtain ⟨reading, hsource, htag, hdecode, hold⟩ := hexact cache hcache etag hetag
      exact ⟨reading, hsource, htag, hdecode, hpast reading hold⟩

/-! ## One call -/

/-- What a call owes the others; and when it is told that nothing changed,
nothing was committed since the copy it holds was read. -/
def fetchGuarantee (context : Context) (before : Watched × Seen) (effect : Effect)
    (reply : effect.Reply) (after : Watched × Seen) : Prop :=
  Evolves context before.1 after.1 ∧
    match effect, reply with
    | .getManifest _, .ok .notModified => ∃ reading, before.2.heldFrom = some reading ∧
        reading.commits = before.1.commits ∧
        reading.vault.files = before.1.world.server.vault.files
    | _, _ => True

/-- What a call ends with: the manifest of the state its request was answered
from. -/
def fetchPost (context : Context) (value : Fetch) (world : Watched × Seen) : Prop :=
  Exact context world.1 ∧ ∀ manifest, value = .ok (.inl manifest) →
    ∃ reading, world.2.answeredFrom = some reading ∧
      decodeManifest context.crypto reading.vault.files = .ok manifest

def fetchContract (context : Context) (ι : Type) : Contract (fetching context ι) where
  rely := fun _ => Evolves context
  guarantee := fun _ => fetchGuarantee context
  post := fun _ => fetchPost context

section Call

variable {ι : Type} {i : ι} {α : Type}

/-- What a call knows once it has read the cache. -/
def Holding (context : Context) (cached : Option RemoteManifestCache) (world : Watched × Seen) :
    Prop :=
  Exact context world.1 ∧ ∀ cache, cached = some cache →
    cache.etag.isSome = true ∧ CopyOf context world.1 cache world.2.heldFrom

theorem Holding.evolves {cached : Option RemoteManifestCache} {before after : Watched}
    {seen : Seen} (hholding : Holding context cached (before, seen))
    (hevolves : Evolves context before after) : Holding context cached (after, seen) := by
  refine ⟨hevolves.exact hholding.1, fun cache hcache => ?_⟩
  obtain ⟨hsome, hcopy⟩ := hholding.2 cache hcache
  exact ⟨hsome, hcopy.evolves hevolves⟩

theorem holds_loadRemoteCache {world : Watched × Seen} (hexact : Exact context world.1) :
    Holds ((fetchContract context ι).setting i)
      (fun cached after =>
        Holding context (cached.filter fun cache => cache.etag.isSome) after)
      (Prog.perform Effect.loadRemoteCache) world := by
  refine (holds_perform Effect.loadRemoteCache).mpr ?_
  rintro ⟨before, seen⟩ ⟨hrely, _⟩ reply ⟨⟨world', commits, source⟩, seen'⟩
    ⟨⟨env, hhandle⟩, hcommits, hnoted⟩
  simp only [noted, Prod.mk.injEq] at hcommits hnoted
  obtain ⟨rfl, rfl⟩ := hnoted
  subst hcommits
  have hbefore : Exact context before := hrely.exact hexact
  have hread : world' = before.world ∧ (reply = before.world.device.cache ∨ reply = none) := by
    simp only [handle] at hhandle
    split at hhandle
    next cache hread =>
      obtain ⟨rfl, hsame⟩ := Prod.mk.inj hhandle
      refine ⟨hsame.symm, Or.inl ?_⟩
      unfold Env.onDevice at hread
      split at hread
      next => cases hread
      next => exact (Except.ok.inj hread).symm
    next =>
      obtain ⟨rfl, hsame⟩ := Prod.mk.inj hhandle
      exact ⟨hsame.symm, Or.inr rfl⟩
  obtain ⟨rfl, hreply⟩ := hread
  refine ⟨⟨Evolves.refl before, trivial⟩, hbefore, ?_⟩
  intro cache hcache
  obtain ⟨hsome, htagged⟩ := Option.filter_eq_some_iff.mp hcache
  refine ⟨htagged, hbefore cache ?_⟩
  rcases hreply with rfl | rfl
  · exact hsome
  · cases hsome

/-- The answer to a request, read from the state it met. -/
def Answering (context : Context) (cached : Option RemoteManifestCache) (header : Option String)
    (answer : Except ApiError ManifestFetch) (world : Watched × Seen) : Prop :=
  Exact context world.1 ∧
    match answer with
    | .error _ => True
    | .ok .notModified => header.isSome = true ∧ ∀ cache, cached = some cache →
        ∃ reading, world.2.answeredFrom = some reading ∧
          decodeManifest context.crypto reading.vault.files = .ok cache.manifest
    | .ok (.modified manifest etag) => ∃ reading, world.2.answeredFrom = some reading ∧
        etag = some (Server.etagOf reading.vault.revision) ∧
        decodeManifest context.crypto reading.vault.files = .ok manifest ∧ Past reading world.1

theorem holds_getManifestIfChanged {cached : Option RemoteManifestCache} {world : Watched × Seen}
    (hholding : Holding context cached world) :
    Holds ((fetchContract context ι).setting i)
      (Answering context cached (cached.bind RemoteManifestCache.etag))
      (getManifestIfChanged context.crypto (cached.bind RemoteManifestCache.etag)) world := by
  rw [getManifestIfChanged, holds_bind]
  refine (holds_perform (Effect.getManifest _)).mpr ?_
  rintro ⟨before, seen⟩ ⟨hrely, hown⟩ reply ⟨⟨world', commits, source⟩, seen'⟩
    ⟨⟨env, hhandle⟩, hcommits, hnoted⟩
  obtain rfl : seen = world.2 := hown
  simp only [noted, Prod.mk.injEq] at hcommits hnoted
  obtain ⟨rfl, rfl⟩ := hnoted
  subst hcommits
  simp only [handle, Prod.mk.injEq] at hhandle
  obtain ⟨hreply, rfl⟩ := hhandle
  have hhere : Holding context cached (before, world.2) := hholding.evolves hrely
  rcases manifest_answers env before.world.server.vault context.userId
      (cached.bind RemoteManifestCache.etag) with
    ⟨error, hanswer⟩ | ⟨hhit, hanswer⟩ | hanswer
  · obtain rfl := hreply.symm.trans hanswer
    exact ⟨⟨Evolves.refl before, trivial⟩, hhere.1, trivial⟩
  · obtain rfl := hreply.symm.trans hanswer
    -- only a copy with a tag can hit, and its tag is that of the current state
    cases hcached : cached with
    | none =>
        rw [hcached] at hhit
        cases hhit
    | some cache =>
        obtain ⟨htagged, hcopy⟩ := hhere.2 cache hcached
        obtain ⟨etag, hetag⟩ := Option.isSome_iff_exists.mp htagged
        obtain ⟨reading, hheld, rfl, hdecode, hpast⟩ := hcopy etag hetag
        rw [hcached, Option.bind_some, hetag, Server.ifNoneMatchHits_etagOf] at hhit
        have hrevision : reading.vault.revision + before.commits =
            before.world.server.vault.revision + reading.commits := hpast.revision
        have hcommits : reading.commits = before.commits := by omega
        have hfiles := hpast.same hcommits
        refine ⟨⟨Evolves.refl before, reading, hheld, hcommits, hfiles⟩, hhere.1,
          by simp [hetag], ?_⟩
        intro other hother
        obtain rfl := Option.some.inj hother
        exact ⟨before.reading, rfl, hfiles ▸ hdecode⟩
  · obtain rfl := hreply.symm.trans hanswer
    refine ⟨⟨Evolves.refl before, trivial⟩, ?_⟩
    cases hdecode : decodeManifest context.crypto before.world.server.vault.files with
    | error error =>
        simp only [hdecode]
        exact ⟨hhere.1, trivial⟩
    | ok manifest =>
        simp only [hdecode]
        exact ⟨hhere.1, before.reading, rfl, rfl, hdecode, Past.now before⟩

/-- A new copy becomes the cache, or fails to. -/
theorem holds_saveRemoteCache {manifest : Manifest} {etag : Option String} {world : Watched × Seen}
    {reading : Reading} (hexact : Exact context world.1)
    (hfrom : world.2.answeredFrom = some reading)
    (hetag : etag = some (Server.etagOf reading.vault.revision))
    (hdecode : decodeManifest context.crypto reading.vault.files = .ok manifest)
    (hpast : Past reading world.1) :
    Holds ((fetchContract context ι).setting i)
      (fun _ after => Exact context after.1 ∧ after.2 = world.2)
      (Prog.perform (Effect.saveRemoteCache { etag, manifest })) world := by
  refine (holds_perform (Effect.saveRemoteCache _)).mpr ?_
  rintro ⟨before, seen⟩ ⟨hrely, hown⟩ reply ⟨after, seen'⟩ ⟨⟨env, hhandle⟩, hcommits, hnoted⟩
  obtain rfl : seen = world.2 := hown
  have hbefore : Exact context before := hrely.exact hexact
  have hevolved := hrely.past reading hpast
  change env.change before.world _ = _ at hhandle
  rcases env.change_cases before.world
      { before.world.device with cache := some { etag, manifest } } with hdone | ⟨error, hfailed⟩
  · obtain ⟨rfl, hworld⟩ := Prod.mk.inj (hhandle.symm.trans hdone)
    simp only [noted, Prod.mk.injEq] at hnoted hworld hcommits
    obtain ⟨hsource, rfl⟩ := hnoted
    have hserver : after.world.server = before.world.server := by rw [hworld]
    have hexactNow : Exact context after := by
      intro cache hcache tag htag
      rw [hworld] at hcache
      obtain rfl := Option.some.inj hcache
      refine ⟨reading, hsource.trans hfrom, ?_, hdecode, hevolved.of_server hserver hcommits⟩
      exact Option.some.inj (htag.symm.trans hetag)
    exact ⟨⟨⟨fun _ => hexactNow, fun other hother => hother.of_server hserver hcommits⟩, trivial⟩,
      hexactNow, rfl⟩
  · obtain ⟨rfl, hworld⟩ := Prod.mk.inj (hhandle.symm.trans hfailed)
    simp only [noted, Prod.mk.injEq] at hnoted hworld hcommits
    obtain ⟨hsource, rfl⟩ := hnoted
    obtain rfl : after = before := by
      obtain ⟨world', commits, source⟩ := after
      obtain rfl : world' = before.world := hworld
      obtain rfl : commits = before.commits := hcommits
      obtain rfl : source = before.cachedFrom := hsource
      rfl
    exact ⟨⟨Evolves.refl after, trivial⟩, hbefore, rfl⟩

/-- A whole `fetch_remote_manifest`. -/
theorem holds_fetchCall {world : Watched × Seen} (hexact : Exact context world.1) :
    Holds ((fetchContract context ι).setting i) (fetchPost context) (fetchCall context.crypto)
      world := by
  rw [fetchCall, holds_bind, fetchRemoteManifest, holds_bind]
  refine (holds_loadRemoteCache hexact).mono ?_
  intro loaded world hholding
  simp only
  generalize (loaded.filter fun cache => cache.etag.isSome) = cached at hholding
  rw [holds_bind]
  refine (holds_getManifestIfChanged hholding).mono ?_
  rintro answer world ⟨hexact, hanswer⟩
  rcases answer with error | ⟨manifest, etag⟩ | _
  · exact ⟨hexact, fun manifest hvalue => by cases hvalue⟩
  · obtain ⟨reading, hfrom, hetag, hdecode, hpast⟩ := hanswer
    have hsome : etag.isSome = true := by simp [hetag]
    simp only [hsome, ↓reduceIte, holds_bind]
    refine (holds_saveRemoteCache hexact hfrom hetag hdecode hpast).mono ?_
    rintro _ after ⟨hafter, hown⟩
    refine ⟨hafter, ?_⟩
    intro other hvalue
    obtain rfl := Sum.inl.inj (Except.ok.inj hvalue)
    exact ⟨reading, by rw [hown]; exact hfrom, hdecode⟩
  · cases cached with
    | none => cases hanswer.1
    | some cache =>
        refine ⟨hexact, ?_⟩
        intro manifest hvalue
        obtain rfl := Sum.inl.inj (Except.ok.inj hvalue)
        exact hanswer.2 cache rfl

/-- A whole `remote_changed`. -/
theorem holds_pollCall {world : Watched × Seen} (hexact : Exact context world.1) :
    Holds ((fetchContract context ι).setting i) (fetchPost context) (pollCall context.crypto)
      world := by
  have hdone : ∀ (changed : Bool) (world : Watched × Seen), Exact context world.1 →
      fetchPost context (.ok (.inr changed)) world :=
    fun changed world hexact => ⟨hexact, fun manifest hvalue => by cases hvalue⟩
  rw [pollCall, holds_bind, remoteChanged, holds_bind]
  refine (holds_loadRemoteCache hexact).mono ?_
  intro loaded world hholding
  generalize (loaded.filter fun cache => cache.etag.isSome) = cached at hholding
  cases cached with
  | none => exact hdone true world hholding.1
  | some cache =>
      simp only [holds_bind]
      refine (holds_getManifestIfChanged hholding).mono ?_
      rintro answer world ⟨hexact, hanswer⟩
      rcases answer with error | ⟨manifest, etag⟩ | _
      · exact ⟨hexact, fun manifest hvalue => by cases hvalue⟩
      · obtain ⟨reading, hfrom, hetag, hdecode, hpast⟩ := hanswer
        have hsome : etag.isSome = true := by simp [hetag]
        simp only [hsome, ↓reduceIte, holds_bind]
        refine (holds_saveRemoteCache hexact hfrom hetag hdecode hpast).mono ?_
        rintro _ after ⟨hafter, _⟩
        exact hdone true after hafter
      · exact hdone false world hexact

end Call

/-! ## Any number of calls -/

theorem holds_newCall {ι : Type} {i : ι} {process : Process Effect Effect.Reply Seen Fetch}
    (hcall : NewCall context.crypto process) {watched : Watched} (hexact : Exact context watched) :
    Holds ((fetchContract context ι).setting i) (fetchPost context) process.prog
      (watched, process.own) := by
  rcases hcall with hfetch | hpoll
  · rw [hfetch]
    exact holds_fetchCall hexact
  · rw [hpoll]
    exact holds_pollCall hexact

theorem fetchContract_sound (context : Context) (ι : Type) : (fetchContract context ι).Sound where
  rely_refl := fun _ => Evolves.refl
  rely_trans := fun _ _ _ _ => Evolves.trans
  post_rely := by
    rintro i value before after own hevolves ⟨hexact, hmanifest⟩
    exact ⟨hevolves.exact hexact, hmanifest⟩
  others := fun _ _ _ _ _ _ _ hguarantee => hguarantee.1
  outside := fun _ _ _ hmeanwhile => hmeanwhile.evolves
  begins := fun _ _ _ _ hpost hcall => holds_newCall hcall hpost.1

/-- In every run of manifest calls of one folder among the writes of others:
a fetch that succeeds has the manifest of the state its request was answered
from, and a request is told "not modified" only if nothing was committed since
the copy it asks for was read. -/
theorem conditional_fetch_is_exact {ι : Type} [DecidableEq ι] {context : Context}
    {pool after : Pool Effect Effect.Reply Watched Seen ι Fetch}
    (hcache : pool.shared.world.device.cache = none)
    (hcalls : ∀ i, NewCall context.crypto (pool.procs i))
    (hrun : Relation.ReflTransGen (Step (fetching context ι)) pool after) :
    (∀ i manifest, (after.procs i).prog = .pure (.ok (.inl manifest)) →
      ∃ reading, (after.procs i).own.answeredFrom = some reading ∧
        decodeManifest context.crypto reading.vault.files = .ok manifest) ∧
    ∀ i header next own, after.procs i = ⟨.act (.getManifest header) next, own⟩ →
      ∀ later, Asks context (.getManifest header) (after.shared, own) (.ok .notModified) later →
        ∃ reading, own.heldFrom = some reading ∧ reading.commits = after.shared.commits ∧
          reading.vault.files = after.shared.world.server.vault.files := by
  have hexact : Exact context pool.shared := by
    intro cache hsome
    rw [hcache] at hsome
    cases hsome
  have hkept := (fetchContract_sound context ι).run (fun i => holds_newCall (hcalls i) hexact) hrun
  constructor
  · intro i manifest hprog
    have hhere := hkept i
    rw [hprog] at hhere
    exact hhere.2 manifest rfl
  · intro i header next own hproc later hasks
    have hhere := hkept i
    rw [hproc] at hhere
    exact (hhere (after.shared, own) ⟨Evolves.refl _, rfl⟩ _ later hasks).1.2

/-- One call in a vault with a row, and no cache yet. -/
def samplePool : Pool Effect Effect.Reply Watched Seen Unit Fetch where
  shared :=
    { world :=
        { device := { folder := ∅, base := ∅, cache := none }
          server := Server.settled Server.sampleConfig Server.freshState noteCalls }
      commits := 0
      cachedFrom := none }
  procs := fun _ => ⟨fetchCall .sample, ⟨none, none⟩⟩

theorem fetch_is_exact_in_sample :
    ∃ after, Relation.ReflTransGen (Step (fetching sampleContext Unit)) samplePool after ∧
      ∃ manifest, (after.procs ()).prog = .pure (.ok (.inl manifest)) ∧
        ∃ reading, (after.procs ()).own.answeredFrom = some reading ∧
          decodeManifest .sample reading.vault.files = .ok manifest := by
  let start := (samplePool.shared, (⟨none, none⟩ : Seen))
  let run := Prog.exec (askOnce sampleContext) (fetchCall .sample) (List.replicate 3 {}) start
  have hend :
      (run.1.result?.bind fun fetched => fetched.toOption.bind Sum.getLeft?).isSome = true := by
    decide +kernel
  obtain ⟨manifest, hresult⟩ : ∃ manifest, run.1.result? = some (.ok (.inl manifest)) := by
    obtain ⟨manifest, hsome⟩ := Option.isSome_iff_exists.mp hend
    obtain ⟨fetched, hfetched, hfound⟩ := Option.bind_eq_some_iff.mp hsome
    obtain ⟨found, hok, hleft⟩ := Option.bind_eq_some_iff.mp hfound
    cases fetched with
    | error error => cases hok
    | ok value =>
        obtain rfl := Option.some.inj hok
        exact ⟨manifest, hfetched.trans (by rw [Sum.getLeft?_eq_some_iff.mp hleft])⟩
  have hreaches : Prog.Reaches ((fetching sampleContext Unit).performs ()) (fetchCall .sample) start
      run.1 run.2 :=
    Prog.exec_reaches_any (asks_askOnce sampleContext) _ _ _
  have hrun := hreaches.pool (show samplePool.shared = start.1 from rfl) rfl
  have hprog : run.1 = .pure (.ok (.inl manifest)) := Prog.eq_pure_of_result? hresult
  have hexact := (conditional_fetch_is_exact rfl (fun _ => Or.inl rfl) hrun).1 () manifest
    (by simpa using hprog)
  exact ⟨_, hrun, manifest, by simpa using hprog, hexact⟩

end ObSink.Engine
