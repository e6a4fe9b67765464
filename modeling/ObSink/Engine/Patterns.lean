import ObSink.Engine.Converge
import ObSink.Engine.Rounds

/-! # Changing the ignore rules

A sync diffs what its rules show, but its checkpoint takes over the whole
server manifest. When new rules show a path that the old ones hid, the
checkpoint has the server's version of it whether or not the folder ever did,
and the folder seems to have changed it.
-/

namespace ObSink.Engine

open Prog (Setting Holds Within Reaches exec perform holds_bind holds_perform)

/-- The same device and server under other rules. -/
def Context.under (context : Context) (rules : IgnoreRules) : Context :=
  { context with ignore := rules }

variable {context : Context}

theorem Context.Ideal.under (h : context.Ideal) (rules : IgnoreRules) :
    (context.under rules).Ideal :=
  ⟨h.crypto, h.aead, h.pathName⟩

theorem Tidy.under {world : World} (h : Tidy context world) (rules : IgnoreRules) :
    Tidy (context.under rules) world :=
  ⟨⟨h.orderly.noStrays, h.orderly.named, h.orderly.live⟩, h.cached⟩

/-! ## What the folder has -/

/-- The version of a path in the folder, ignored or not. -/
def folderVersion (crypto : Crypto) (world : World) (path : String) : Version :=
  version (buildManifest crypto ⟨[]⟩ world.device.folder)[path]?

/-- On a path that the rules show, the walk lists what the folder has. -/
theorem localVersion_of_seen {world : World} {path : String}
    (hseen : context.ignore.isIgnored path = false) :
    localVersion context world path = folderVersion context.crypto world path := by
  have hsame : (buildManifest context.crypto context.ignore world.device.folder)[path]? =
      (buildManifest context.crypto ⟨[]⟩ world.device.folder)[path]? := by
    rw [buildManifest_eq_insertAll, buildManifest_eq_insertAll]
    apply Std.ExtTreeMap.getElem?_insertAll_congr
    intro item _ entry
    unfold listing
    grind [IgnoreRules.isIgnored]
  rw [localVersion, hsame, folderVersion]

/-! ## A completed sync -/

/-- No failures, no conflicts left, and the checkpoint written. -/
structure Clean (result : SyncResult) : Prop where
  failures : result.failures = []
  conflicts : result.conflicts = []
  checkpointed : result.checkpointError = none

/-- A sync that completed, in one cycle or with a round on the conflicts that
were left. -/
inductive Synced (context : Context) (world after : World) : Prop
  | cycle {plan : SyncPlan} {result : SyncResult}
      (hreaches : Reaches (Faulty context) (cycle context.crypto context.ignore) world
        (.pure (.ok (plan, result))) after) (hclean : Clean result)
  | round {plan : SyncPlan} {resolutions : List ConflictResolution} {result : SyncResult}
      (hreaches : Reaches (Faulty context) (completeSync context.crypto plan resolutions) world
        (.pure (.ok result)) after) (hclean : Clean result)

/-- The checkpoint has what the server lists. -/
def Level (context : Context) (world : World) : Prop :=
  ∀ path, world.device.base[path]? = listed context world.server path

/-- Nothing is held back without a failure or a conflict. -/
theorem UploadOutcome.After.holdBack_eq_nil {actions : List SyncAction}
    {start outcome : UploadOutcome} (hafter : start.After actions outcome)
    (hstart : start.holdBack = [])
    (hfailures : outcome.failures = []) (hlate : outcome.lateConflicts = []) :
    outcome.holdBack = [] := by
  have hcause : ∀ path ∈ outcome.holdBack, path ∈ outcome.failures.map SyncFailure.path ∨
      path ∈ outcome.lateConflicts.map Conflict.path := by
    clear hfailures hlate
    induction hafter with
    | refl => simp [hstart]
    | tail _ hstep ih =>
        obtain ⟨action, _, hnotes⟩ := hstep
        intro path hpath
        cases hnotes with
        | done => exact ih path hpath
        | failed message fatal =>
            simp only [UploadOutcome.fail, List.mem_append, List.map_append] at hpath ⊢
            grind
        | refused remote =>
            simp only [List.mem_append, List.map_append] at hpath ⊢
            grind
  rw [List.eq_nil_iff_forall_not_mem]
  intro path hpath
  simpa [hfailures, hlate] using hcause path hpath

/-! ## What a completed sync leaves -/

/-- Alone with the server, and nothing asked of the operations. -/
def anyhow (performs : (effect : Effect) → World → effect.Reply → World → Prop) :
    Setting Effect Effect.Reply World where
  performs := performs
  rely := Eq
  guarantee := fun _ _ _ _ => True

theorem holds_anyhow {α : Type}
    (performs : (effect : Effect) → World → effect.Reply → World → Prop) (prog : Eff α)
    (world : World) : Holds (anyhow performs) (fun _ _ => True) prog world := by
  induction prog generalizing world with
  | pure value => trivial
  | act effect next ih => exact fun _ _ reply after _ => ⟨trivial, ih reply after⟩

section Completed

variable {performs : (effect : Effect) → World → effect.Reply → World → Prop}
  (hfaulty : ∀ effect before reply after, performs effect before reply after →
    Faulty context effect before reply after)
  {path : String} {entry : Option FileEntry}

include hfaulty

/-- A checkpoint with nothing held back takes over what the server lists. -/
theorem holds_checkpoint_level {world : World} (hkept : Kept context path entry world) :
    Holds (anyhow performs)
      (fun result after => result = .ok () → Tidy context after ∧ Level context after)
      (checkpoint context.crypto []) world := by
  rw [checkpoint, holds_bind]
  refine ((holds_fetch hfaulty hkept).weaken fun _ _ _ _ _ => trivial).mono ?_
  rintro (error | remote) fetched ⟨hfetched, hlists⟩
  · exact fun hok => by cases hok
  simp only [holds_bind]
  refine (holds_perform Effect.loadBase).mpr ?_
  rintro before rfl reply after hload
  refine ⟨trivial, ?_⟩
  obtain ⟨env, _, hhandle⟩ := hfaulty _ _ _ _ hload
  obtain rfl : fetched = after := (Prod.mk.inj hhandle).2
  cases reply with
  | error error => exact fun hok => by cases hok
  | ok previous =>
      refine (holds_perform (Effect.saveBase _)).mpr ?_
      rintro before rfl reply after hsave
      refine ⟨trivial, ?_⟩
      rintro rfl
      obtain ⟨env, _, hhandle⟩ := hfaulty _ _ _ _ hsave
      change env.change fetched _ = _ at hhandle
      rcases env.change_cases fetched { fetched.device with
          base := checkpointManifest previous remote [] } with hdone | ⟨error, hfailed⟩
      · obtain ⟨_, rfl⟩ := Prod.mk.inj (hhandle.symm.trans hdone)
        refine ⟨hfetched.tidy.of_same rfl rfl, ?_⟩
        intro path
        change (checkpointManifest previous remote [])[path]? = listed context fetched.server path
        rw [checkpointManifest_getElem?, if_neg (List.not_mem_nil), hlists remote rfl path,
          hfetched.server]
      · cases (Prod.mk.inj (hhandle.symm.trans hfailed)).1

variable (hideal : context.crypto.Ideal)

include hideal

/-- A clean result comes with a checkpoint that has what the server lists. -/
theorem holds_complete_level (plan : SyncPlan) (resolutions : List ConflictResolution)
    {world : World} (hkept : Kept context path entry world) :
    Holds (anyhow performs)
      (fun value after => ∀ result, value = .ok result → Clean result →
        Tidy context after ∧ Level context after)
      (completeSync context.crypto plan resolutions) world := by
  rw [completeSync, holds_bind]
  refine ((holds_blind hideal hfaulty (applyResolutions_blind context.crypto resolutions
    plan.conflicts ⟨plan.upload, []⟩) hkept).weaken fun _ _ _ _ _ => trivial).mono ?_
  rintro (error | resolved) after ⟨hresolved, _⟩
  · exact fun result hok => by cases hok
  simp only [holds_bind]
  have hblind := (runUploads_after resolved.uploads (plan.failures.map SyncFailure.path ++
    resolved.deferred.map Conflict.path)).weaken fun _ hseals => hseals.uploads.blind
  refine ((holds_blind hideal hfaulty hblind hresolved).weaken fun _ _ _ _ _ => trivial).mono ?_
  rintro uploads later ⟨huploaded, hafter⟩
  by_cases hquiet : plan.failures ++ uploads.failures = [] ∧
      resolved.deferred ++ uploads.lateConflicts = []
  · obtain ⟨hfailures, hconflicts⟩ := hquiet
    obtain ⟨hplan, hfailed⟩ := List.append_eq_nil_iff.mp hfailures
    obtain ⟨hdeferred, hlate⟩ := List.append_eq_nil_iff.mp hconflicts
    have hheld : uploads.holdBack = [] :=
      hafter.holdBack_eq_nil (by simp [hplan, hdeferred]) hfailed hlate
    rw [hfailures, hheld]
    simp only [List.any_nil, Bool.false_eq_true, ↓reduceIte, holds_bind]
    refine (holds_checkpoint_level hfaulty huploaded).mono ?_
    rintro (error | value) world hlevel result hok hclean
    · obtain rfl := Except.ok.inj hok
      cases hclean.checkpointed
    · exact hlevel rfl
  · -- whatever becomes of the checkpoint, the result is not clean
    split
    next =>
      intro result hok hclean
      obtain rfl := Except.ok.inj hok
      exact absurd ⟨hclean.failures, hclean.conflicts⟩ hquiet
    next =>
      rw [holds_bind]
      refine (holds_anyhow performs _ later).mono ?_
      rintro (error | value) world _ result hok hclean <;>
        obtain rfl := Except.ok.inj hok <;>
        exact absurd ⟨hclean.failures, hclean.conflicts⟩ hquiet

/-- The same of a whole cycle. -/
theorem holds_cycle_level {world : World} (hkept : Kept context path entry world) :
    Holds (anyhow performs)
      (fun value after => ∀ plan result, value = .ok (plan, result) → Clean result →
        Tidy context after ∧ Level context after)
      (cycle context.crypto context.ignore) world := by
  rw [cycle, holds_bind]
  refine ((holds_prepare hideal hfaulty hkept).weaken fun _ _ _ _ _ => trivial).mono ?_
  rintro (error | plan) prepared ⟨hprepared, _⟩
  · exact fun plan result hok => by cases hok
  simp only [holds_bind]
  refine (holds_perform (Effect.ask _)).mpr ?_
  rintro before rfl answers asked hask
  refine ⟨trivial, ?_⟩
  obtain ⟨env, _, hhandle⟩ := hfaulty _ _ _ _ hask
  obtain rfl : prepared = asked := (Prod.mk.inj hhandle).2
  refine (holds_complete_level hfaulty hideal plan answers hprepared).mono ?_
  rintro (error | done) after hlevel planned result hok hclean
  · cases hok
  · obtain ⟨-, rfl⟩ := Prod.mk.inj (Except.ok.inj hok)
    exact hlevel done rfl hclean

end Completed

/-- After a completed sync the checkpoint has what the server lists. -/
theorem Synced.level (hideal : context.crypto.Ideal) {world after : World}
    (hsync : Synced context world after) (htidy : Tidy context world) :
    Tidy context after ∧ Level context after := by
  have hkept : Kept context "" world.device.base[""]? world := ⟨htidy, rfl⟩
  have hfaulty : ∀ effect before reply after, Faulty context effect before reply after →
      Faulty context effect before reply after := fun _ _ _ _ hperform => hperform
  cases hsync with
  | cycle hreaches hclean =>
      have hcycle := holds_cycle_level hfaulty hideal hkept
      exact hcycle.reaches (fun _ => rfl) hreaches _ _ rfl hclean
  | @round plan resolutions _ hreaches hclean =>
      have hround := holds_complete_level hfaulty hideal plan resolutions hkept
      exact hround.reaches (fun _ => rfl) hreaches _ rfl hclean

/-! ## What a plan uploads -/

/-- The server has the checkpoint's version of the path, and the folder another. -/
structure FolderChanged (context : Context) (start : World) (path : String) : Prop where
  seen : context.ignore.isIgnored path = false
  differs : folderVersion context.crypto start path ≠ version (listed context start.server path)
  base : version (listed context start.server path) = version start.device.base[path]?

theorem PlannedFrom.upload {start : World} {plan : SyncPlan}
    (hplanned : PlannedFrom context start plan) {action : SyncAction}
    (hmem : action ∈ plan.upload) :
    FolderChanged context start action.path ∧
      action.remoteEntry = listed context start.server action.path ∧
      action.kind = match folderVersion context.crypto start action.path with
        | .present _ => .upload
        | .gone => .deleteRemote := by
  obtain ⟨now, remote, hremote, failures, rfl⟩ := hplanned
  have hdecision := mem_diff_upload.mp hmem
  simp only [decisionAt, keep_getElem?, hremote action.path] at hdecision
  cases hseen : context.ignore.isIgnored action.path with
  | true => simp [hseen, decide3, version] at hdecision
  | false =>
      simp only [hseen, Bool.false_eq_true, ↓reduceIte, decide3_eq, version_buildWorkingManifest]
        at hdecision
      rw [← localVersion, localVersion_of_seen hseen] at hdecision
      split at hdecision
      next => cases hdecision
      next hdiffers =>
        split at hdecision
        next => cases hdecision
        next =>
          split at hdecision
          next hbase =>
            have haction := Decision.upload.inj hdecision
            refine ⟨⟨hseen, hdiffers, hbase⟩, ?_, ?_⟩
            · exact (congrArg SyncAction.remoteEntry haction).symm
            · exact (congrArg SyncAction.kind haction).symm
          next => cases hdecision

theorem PlannedFrom.exists_upload {start : World} {plan : SyncPlan}
    (hplanned : PlannedFrom context start plan) {path : String}
    (hchanged : FolderChanged context start path) : ∃ action ∈ plan.upload, action.path = path := by
  obtain ⟨now, remote, hremote, failures, rfl⟩ := hplanned
  obtain ⟨hseen, hdiffers, hbase⟩ := hchanged
  have hmoved : folderVersion context.crypto start path ≠ version start.device.base[path]? := by
    rwa [← hbase]
  rw [← localVersion_of_seen hseen, localVersion] at hdiffers hmoved
  apply List.mem_map.mp
  apply path_mem_diff_upload
  simp only [decisionAt, keep_getElem?, hseen, hremote path, Bool.false_eq_true, ↓reduceIte,
    decide3_eq, version_buildWorkingManifest]
  rw [if_neg hdiffers, if_neg hmoved, if_pos hbase]

/-! ## What a plan destroys -/

theorem version_eq_present {entry : Option FileEntry} {hash : String} :
    version entry = .present hash ↔ ∃ found, entry = some found ∧ found.deleted = false ∧
      found.hash = hash := by
  cases entry with
  | none => simp [version]
  | some found => cases hdeleted : found.deleted <;> simp [version, hdeleted]

/-- No remote delete, and no upload over a server version the folder never held. -/
def DestroysNothing (held : String → String → Prop) (plan : SyncPlan) : Prop :=
  ∀ action ∈ plan.upload, action.kind ≠ .deleteRemote ∧
    (action.kind = .upload → ∀ entry, action.remoteEntry = some entry → entry.deleted = false →
      held action.path entry.hash)

/-- The folder has the server's version of a path the rules show, or it has a
file there and once held that version. -/
def Spared (context : Context) (held : String → String → Prop) (rules : IgnoreRules) (world : World)
    (path : String) : Prop :=
  rules.isIgnored path = false →
  ∀ hash, version (listed context world.server path) = .present hash →
    folderVersion context.crypto world path = .present hash ∨
      folderVersion context.crypto world path ≠ .gone ∧ held path hash

/-- A plan destroys nothing iff every path is spared whose version the checkpoint
shares with the server. -/
theorem PlannedFrom.destroysNothing_iff {start : World} {plan : SyncPlan}
    (hplanned : PlannedFrom context start plan) (held : String → String → Prop) :
    DestroysNothing held plan ↔ ∀ path,
      version (listed context start.server path) = version start.device.base[path]? →
        Spared context held context.ignore start path := by
  constructor
  · intro hnothing path hbase hseen hash hlive
    by_cases hsame : folderVersion context.crypto start path = .present hash
    · exact Or.inl hsame
    · right
      have hchanged : FolderChanged context start path := ⟨hseen, by rwa [hlive], hbase⟩
      obtain ⟨action, hmem, rfl⟩ := hplanned.exists_upload hchanged
      obtain ⟨-, hremote, hkind⟩ := hplanned.upload hmem
      obtain ⟨hkeeps, hover⟩ := hnothing action hmem
      cases hversion : folderVersion context.crypto start action.path with
      | gone =>
          rw [hversion] at hkind
          exact absurd hkind hkeeps
      | present mine =>
          rw [hversion] at hkind
          obtain ⟨entry, hentry, hundeleted, rfl⟩ := version_eq_present.mp hlive
          exact ⟨by simp, hover hkind entry (hremote.trans hentry) hundeleted⟩
  · intro hspared action hmem
    obtain ⟨hchanged, hremote, hkind⟩ := hplanned.upload hmem
    have hat := hspared action.path hchanged.base hchanged.seen
    -- the server's version is not the folder's, so it was held
    have hheld : ∀ hash, version (listed context start.server action.path) = .present hash →
        folderVersion context.crypto start action.path ≠ .gone ∧ held action.path hash := by
      intro hash hlive
      apply (hat hash hlive).resolve_left
      intro hsame
      exact hchanged.differs (hsame.trans hlive.symm)
    constructor
    · intro hdelete
      cases hversion : folderVersion context.crypto start action.path with
      | gone =>
          cases hlive : version (listed context start.server action.path) with
          | gone => exact hchanged.differs (hversion.trans hlive.symm)
          | present hash => exact (hheld hash hlive).1 hversion
      | present mine =>
          rw [hversion, hdelete] at hkind
          cases hkind
    · intro _ entry hentry hundeleted
      apply (hheld entry.hash _).2
      rw [← hremote, hentry]
      exact version_eq_present.mpr ⟨entry, rfl, hundeleted, rfl⟩

/-- A device that never synced plans nothing of the kind. -/
theorem PlannedFrom.destroysNothing_of_unsynced {start : World} {plan : SyncPlan}
    (hplanned : PlannedFrom context start plan) (hbase : start.device.base = ∅)
    (held : String → String → Prop) : DestroysNothing held plan := by
  apply (hplanned.destroysNothing_iff held).mpr
  intro path hsame _ hash hlive
  rw [hlive, hbase, Std.ExtTreeMap.getElem?_empty] at hsame
  cases hsame

/-! ## A sync that nobody disturbs -/

/-- Nothing fails, nobody else writes, and each conflict is settled for one side. -/
structure QuietSync (context : Context) (choose : String → ConflictResolutionChoice)
    (world after : World) : Prop where
  decisive : Decisive choose
  sound : Sound context world
  run : ∃ value, Reaches (Undisturbed context choose false)
    (cycle context.crypto context.ignore) world (.pure value) after

theorem Sound.folderVersion_eq {world : World} (h : Sound context world) (path : String) :
    folderVersion context.crypto world path =
      fileVersion context.crypto world.device.folder[path]? := by
  rw [folderVersion, buildManifest_getElem? context.crypto ⟨[]⟩ h.plainFolder path]
  simp only [IgnoreRules.isIgnored, List.any_nil, Bool.false_eq_true, ↓reduceIte]
  cases world.device.folder[path]? <;> rfl

theorem Sound.listed_eq {world : World} (h : Sound context world) (path : String) :
    listed context world.server path = remoteAt context world.server path := by
  unfold listed
  cases hrow : remoteAt context world.server path with
  | none => rfl
  | some entry => simp [Option.filter, ((h path).row entry hrow).encPath_ne]

/-- On every path the rules show, the folder ends with the server's version. -/
theorem QuietSync.level {choose : String → ConflictResolutionChoice} {world after : World}
    (hideal : context.Ideal) (h : QuietSync context choose world after) {path : String}
    (hseen : context.ignore.isIgnored path = false) :
    folderVersion context.crypto after path = version (listed context after.server path) := by
  obtain ⟨value, hreaches⟩ := h.run
  have hcycle := @holds_cycle context choose false _ hideal h.decisive world h.sound fun _ => rfl
  obtain ⟨plan, result, rfl, -, hdone⟩ := hcycle.reaches (fun _ => rfl) hreaches
  obtain ⟨found, hall⟩ := hdone.level rfl path hseen
  have hversions := (hdone.versions path).trans hall
  rw [hdone.sound.folderVersion_eq, hdone.sound.listed_eq]
  exact (congrArg Versions.folder hversions).trans (congrArg Versions.server hversions).symm

/-! ## The rules change -/

/-- The states a device goes through, the last one first. -/
inductive History (context : Context) : List World → World → Prop
  | start {world : World} (htidy : Tidy context world) : History context [world] world
  | sync {seen : List World} {world after : World} (before : History context seen world)
      (hsync : Synced context world after) : History context (after :: seen) after
  /-- Anything else: the user, other devices, a sync that does not complete. -/
  | other {seen : List World} {world after : World} (before : History context seen world)
      (htidy : Tidy context after) : History context (after :: seen) after

theorem History.tidy (hideal : context.crypto.Ideal) {seen : List World} {world : World}
    (h : History context seen world) : Tidy context world := by
  induction h with
  | start htidy => exact htidy
  | sync _ hsync ih => exact (hsync.level hideal ih).1
  | other _ htidy _ => exact htidy

/-- Some state had the version of the path in its folder. -/
def Held (crypto : Crypto) (seen : List World) (path hash : String) : Prop :=
  ∃ world ∈ seen, folderVersion crypto world path = .present hash

/-- After a completed sync, the next plan under new rules destroys nothing iff
every path is spared. When nobody disturbed the sync, only paths that the old
rules hid matter. -/
theorem changed_rules_destroy_nothing_iff (hideal : context.Ideal) {seen : List World}
    {world after later : World} (hhistory : History context seen world)
    (hsync : Synced context world after) {rules : IgnoreRules} {plan : SyncPlan}
    (hplan : Reaches (Faulty (context.under rules)) (prepareSync context.crypto rules) after
      (.pure (.ok plan)) later) :
    (DestroysNothing (Held context.crypto (after :: seen)) plan ↔
      ∀ path, Spared context (Held context.crypto (after :: seen)) rules after path) ∧
    ∀ choose, QuietSync context choose world after →
      (DestroysNothing (Held context.crypto (after :: seen)) plan ↔
        ∀ path, context.ignore.isIgnored path = true →
          Spared context (Held context.crypto (after :: seen)) rules after path) := by
  obtain ⟨htidy, hlevel⟩ := hsync.level hideal.crypto (hhistory.tidy hideal.crypto)
  have hplanned : PlannedFrom (context.under rules) after plan := by
    have hkept : Kept (context.under rules) "" after.device.base[""]? after :=
      ⟨htidy.under rules, rfl⟩
    have hprepare := holds_prepare (hideal.under rules).crypto
      (fun _ _ _ _ hperform => hperform) hkept
    exact ((hprepare.reaches (fun _ => rfl) hplan).2 plan rfl).1
  have hiff : DestroysNothing (Held context.crypto (after :: seen)) plan ↔
      ∀ path, Spared context (Held context.crypto (after :: seen)) rules after path := by
    refine (hplanned.destroysNothing_iff _).trans (forall_congr' fun path => ?_)
    have hbase : version (listed (context.under rules) after.server path) =
        version after.device.base[path]? := by rw [hlevel path]; rfl
    exact ⟨fun hspared => hspared hbase, fun hspared _ => hspared⟩
  refine ⟨hiff, ?_⟩
  intro choose hquiet
  rw [hiff]
  constructor
  · intro hspared path _
    exact hspared path
  · intro hspared path
    cases hhidden : context.ignore.isIgnored path with
    | true => exact hspared path hhidden
    | false =>
        intro _ hash hlive
        exact Or.inl ((hquiet.level hideal hhidden).trans hlive)

/-! ## A path that is shown again -/

/-- The server has `a`; the device has nothing yet. -/
def newcomer : World where
  device := { folder := ∅, base := ∅, cache := none }
  server := ((callOf sampleContext {} (firstPut "a" [2])).serve Server.sampleConfig
    emptyWorld.server).2

def hidden : IgnoreRules := IgnoreRules.defaults.withExtra ["a", "b"]

/-- A first sync that `a` is hidden from. -/
def hiddenSync : Eff (Except SyncEngineError (SyncPlan × SyncResult)) × World :=
  exec (handle (sampleContext.under hidden)) (cycle .sample hidden) (List.replicate 9 {}) newcomer

def hiddenDone : SyncPlan × SyncResult :=
  (hiddenSync.1.result?.bind Except.toOption).getD (⟨[], [], [], []⟩, ⟨[], [], [], [], none⟩)

/-- The prepare after it, under other rules. -/
def nextPrepare (rules : IgnoreRules) : Eff (Except SyncEngineError SyncPlan) × World :=
  exec (handle (sampleContext.under rules)) (prepareSync .sample rules) (List.replicate 4 {})
    hiddenSync.2

def nextPlan (rules : IgnoreRules) : SyncPlan :=
  ((nextPrepare rules).1.result?.bind Except.toOption).getD ⟨[], [], [], []⟩

theorem newcomer_history : History (sampleContext.under hidden) [newcomer] newcomer := by
  apply History.start
  apply Tidy.under
  exact (emptyWorld_tidy.serve sampleContext_ideal.crypto {} (firstPut "a" [2])).of_same rfl rfl

theorem hiddenSync_synced : Synced (sampleContext.under hidden) newcomer hiddenSync.2 := by
  have hdone : hiddenSync.1.result? = some (.ok hiddenDone) ∧ hiddenDone.2.failures = [] ∧
      hiddenDone.2.conflicts = [] ∧ hiddenDone.2.checkpointError = none := by decide +kernel
  obtain ⟨hresult, hfailures, hconflicts, hcheckpointed⟩ := hdone
  have hreaches : Reaches (Faulty (sampleContext.under hidden)) (cycle .sample hidden) newcomer
      (.pure (.ok (hiddenDone.1, hiddenDone.2))) hiddenSync.2 := by
    rw [← Prog.eq_pure_of_result? hresult]
    exact Prog.exec_reaches_any (performs_faulty _) _ _ _
  exact .cycle hreaches ⟨hfailures, hconflicts, hcheckpointed⟩

theorem nextPlan_reaches {rules : IgnoreRules}
    (hresult : (nextPrepare rules).1.result? = some (.ok (nextPlan rules))) :
    Reaches (Faulty ((sampleContext.under hidden).under rules)) (prepareSync .sample rules)
      hiddenSync.2 (.pure (.ok (nextPlan rules))) (nextPrepare rules).2 := by
  rw [← Prog.eq_pure_of_result? hresult]
  exact Prog.exec_reaches_any (performs_faulty _) _ _ _

/-- Rules that show `b` again leave `a` alone. -/
theorem showing_b_spares_every_path :
    (nextPlan (.withExtra .defaults ["a"])).upload = [] ∧
    ∀ path, Spared (sampleContext.under hidden) (Held .sample [hiddenSync.2, newcomer])
      (.withExtra .defaults ["a"]) hiddenSync.2 path := by
  have hplan : (nextPrepare (.withExtra .defaults ["a"])).1.result? =
      some (.ok (nextPlan (.withExtra .defaults ["a"]))) ∧
      (nextPlan (.withExtra .defaults ["a"])).upload = [] := by decide +kernel
  obtain ⟨hresult, hupload⟩ := hplan
  refine ⟨hupload, ?_⟩
  apply (changed_rules_destroy_nothing_iff (sampleContext_ideal.under hidden) newcomer_history
    hiddenSync_synced (nextPlan_reaches hresult)).1.mp
  intro action hmem
  rw [hupload] at hmem
  cases hmem

/-- Rules that show `a` again delete it from the server. -/
theorem shown_again_is_deleted : ¬ ∀ (context : Context) (seen : List World)
    (world after later : World) (rules : IgnoreRules) (plan : SyncPlan), context.Ideal →
    History context seen world → Synced context world after →
    Reaches (Faulty (context.under rules)) (prepareSync context.crypto rules) after
      (.pure (.ok plan)) later →
    DestroysNothing (Held context.crypto (after :: seen)) plan := by
  intro hclaim
  have hplan : (nextPrepare .defaults).1.result? = some (.ok (nextPlan .defaults)) ∧
      ∃ action ∈ (nextPlan .defaults).upload, action.kind = .deleteRemote := by decide +kernel
  obtain ⟨hresult, action, hmem, hdelete⟩ := hplan
  have hnothing := hclaim (sampleContext.under hidden) [newcomer] newcomer hiddenSync.2 _ .defaults
    _ (sampleContext_ideal.under hidden) newcomer_history hiddenSync_synced
    (nextPlan_reaches hresult)
  exact (hnothing action hmem).1 hdelete

end ObSink.Engine
