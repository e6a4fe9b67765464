import ObSink.Engine.Edits
import ObSink.Engine.Rounds

/-! # A round that is refused

`applyResolutions` looks for the answer to a conflict when it comes to it, with the
answers to those before already carried out. Which plans and answers are refused
before anything has happened.
-/

namespace ObSink.Engine

open Prog (Setting Holds Within Reaches exec perform holds_bind holds_pure within_bind
  within_perform reaches_perform)

/-- What fails is not taken for a missing answer. -/
def Genuine (env : Env) : Prop := ∀ path, env.fault ≠ some (.device (.missingResolution path))

/-- The answer to a conflict changes the folder. -/
def Acts (resolutions : List ConflictResolution) (conflict : Conflict) : Prop :=
  choiceOf resolutions conflict = some .keepRemote ∨ choiceOf resolutions conflict = some .keepBoth

instance (resolutions : List ConflictResolution) (conflict : Conflict) :
    Decidable (Acts resolutions conflict) := inferInstanceAs (Decidable (_ ∨ _))

def Answered (resolutions : List ConflictResolution) (conflict : Conflict) : Prop :=
  ∃ choice, resolutionFor resolutions conflict.path = some choice

instance (resolutions : List ConflictResolution) (conflict : Conflict) :
    Decidable (Answered resolutions conflict) :=
  decidable_of_iff ((resolutionFor resolutions conflict.path).isSome = true)
    Option.isSome_iff_exists

/-- The conflicts that are come to before one without an answer. -/
def comeTo (resolutions : List ConflictResolution) (conflicts : List Conflict) : List Conflict :=
  conflicts.takeWhile fun conflict => Answered resolutions conflict

variable {context : Context} {resolutions : List ConflictResolution}

/-! ## Answers -/

/-- An answer that changes nothing. -/
theorem applyResolution_of_not_acts (crypto : Crypto) {conflict : Conflict}
    (hanswered : Answered resolutions conflict) (hidle : ¬ Acts resolutions conflict)
    (resolved : Resolved) :
    ∃ next, applyResolution crypto resolutions resolved conflict = .pure (.ok next) := by
  obtain ⟨choice, hanswer⟩ := hanswered
  have hchoice : choiceOf resolutions conflict = some (effectiveChoice choice conflict) := by
    rw [choiceOf, hanswer, Option.map_some]
  rw [applyResolution, hanswer]
  simp only
  split
  next => exact ⟨_, rfl⟩
  next => exact ⟨_, rfl⟩
  next hkeep => exact absurd (Or.inl (hkeep ▸ hchoice)) hidle
  next hkeep => exact absurd (Or.inr (hkeep ▸ hchoice)) hidle

/-! ## What a refused round may change -/

/-- The answer to a conflict may change the file of this name. -/
def ActsOn (resolutions : List ConflictResolution) (name : String) (conflict : Conflict) : Prop :=
  (choiceOf resolutions conflict = some .keepRemote ∧ conflict.path = name) ∨
    (choiceOf resolutions conflict = some .keepBoth ∧ conflictCopyPath conflict.path = name)

/-- A round may change the file of this name before it comes to a missing answer. -/
def MayChange (resolutions : List ConflictResolution) (conflicts : List Conflict) (name : String) :
    Prop :=
  ∃ conflict ∈ comeTo resolutions conflicts, ActsOn resolutions name conflict

theorem ActsOn.acts {name : String} {conflict : Conflict}
    (hacts : ActsOn resolutions name conflict) : Acts resolutions conflict := by
  rcases hacts with ⟨hkeep, _⟩ | ⟨hkeep, _⟩
  · exact Or.inl hkeep
  · exact Or.inr hkeep

/-- Nothing is changed but files of these names. -/
structure OnlyChanges (names : String → Prop) (world after : World) : Prop where
  server : after.server = world.server
  base : after.device.base = world.device.base
  cache : after.device.cache = world.device.cache
  elsewhere : ∀ name, ¬ names name → after.device.folder[name]? = world.device.folder[name]?

theorem OnlyChanges.eq {names : String → Prop} {world after : World}
    (honly : OnlyChanges names world after) (hnone : ∀ name, ¬ names name) : after = world := by
  have hfolder : after.device.folder = world.device.folder := by
    apply Std.ExtTreeMap.ext_getElem?
    intro name
    exact honly.elsewhere name (hnone name)
  cases world with
  | mk device server =>
      cases after with
      | mk device' server' =>
          cases device
          cases device'
          simp only [World.mk.injEq, Device.mk.injEq]
          exact ⟨⟨hfolder, honly.base, honly.cache⟩, honly.server⟩

/-- An operation that changes no more than files of these names. -/
structure Effect.ChangesOnly (names : String → Prop) (effect : Effect) : Prop where
  blind : effect.Blind
  noOp : ∀ op, effect ≠ .applyOp op
  touches : ∀ name, effect.Touches name → names name

theorem OnlyChanges.handle {names : String → Prop} {effect : Effect}
    (hchanges : effect.ChangesOnly names) (env : Env) {world before : World}
    (honly : OnlyChanges names world before) :
    OnlyChanges names world (handle context env effect before).2 := by
  obtain ⟨hbase, hcache⟩ := handle_blind context env hchanges.blind before
  constructor
  · exact (handle_server context env hchanges.noOp before).trans honly.server
  · exact hbase.trans honly.base
  · exact hcache.trans honly.cache
  · intro name hname
    have huntouched : ¬ effect.Touches name :=
      fun htouches => hname (hchanges.touches name htouches)
    exact (handle_untouched context huntouched env before).trans (honly.elsewhere name hname)

theorem Effect.changesOnly_getFile (names : String → Prop) (path : String) :
    (Effect.getFile path).ChangesOnly names := by
  constructor
  · trivial
  · exact fun _ heq => by cases heq
  · exact fun _ htouches => htouches.elim

theorem Effect.changesOnly_statFile (names : String → Prop) (path : String) :
    (Effect.statFile path).ChangesOnly names := by
  constructor
  · trivial
  · exact fun _ heq => by cases heq
  · exact fun _ htouches => htouches.elim

theorem Effect.changesOnly_writeFile {names : String → Prop} {path : String} (hname : names path)
    (content : Bytes) : (Effect.writeFile path content).ChangesOnly names := by
  constructor
  · trivial
  · exact fun _ heq => by cases heq
  · exact fun _ htouches => htouches ▸ hname

theorem Effect.changesOnly_deleteLocalFile {names : String → Prop} {path : String}
    (hname : names path) : (Effect.deleteLocalFile path).ChangesOnly names := by
  constructor
  · trivial
  · exact fun _ heq => by cases heq
  · exact fun _ htouches => htouches ▸ hname

theorem fetchTo_changesOnly (crypto : Crypto) {names : String → Prop} (source : String)
    {target : String} (hname : names target) :
    Within (Effect.ChangesOnly names) (fun _ => True) (fetchTo crypto source target) := by
  rw [fetchTo, within_bind, within_perform]
  refine ⟨Effect.changesOnly_getFile names source, fun reply => ?_⟩
  cases reply with
  | error error => trivial
  | ok blob =>
      simp only [decryptAndWrite]
      split
      next => trivial
      next => exact ⟨Effect.changesOnly_writeFile hname _, fun _ => trivial⟩

/-- The answer to one conflict. -/
theorem applyResolution_changesOnly (crypto : Crypto) {names : String → Prop} {conflict : Conflict}
    (hnames : ∀ name, ActsOn resolutions name conflict → names name) (resolved : Resolved) :
    Within (Effect.ChangesOnly names) (fun _ => True)
      (applyResolution crypto resolutions resolved conflict) := by
  unfold ActsOn choiceOf at hnames
  unfold applyResolution
  cases hanswer : resolutionFor resolutions conflict.path with
  | none => trivial
  | some choice =>
      rw [hanswer, Option.map_some] at hnames
      simp only
      split
      next => trivial
      next => trivial
      next hkeep =>
        have hname : names conflict.path := hnames _ (Or.inl ⟨congrArg some hkeep, rfl⟩)
        have hkept : Within (Effect.ChangesOnly names) (fun _ => True)
            (applyKeepRemote crypto conflict) := by
          unfold applyKeepRemote
          split
          next => exact ⟨Effect.changesOnly_deleteLocalFile hname, fun _ => trivial⟩
          next => exact fetchTo_changesOnly crypto _ hname
        rw [within_bind]
        apply hkept.mono
        intro reply _
        cases reply <;> trivial
      next hkeep =>
        have hname : names (conflictCopyPath conflict.path) :=
          hnames _ (Or.inr ⟨congrArg some hkeep, rfl⟩)
        rw [within_bind, writeConflictCopy, within_bind]
        apply (fetchTo_changesOnly crypto conflict.path hname).mono
        intro reply _
        cases reply with
        | error error => trivial
        | ok value =>
            simp only [buildUploadActionForPath]
            refine ⟨Effect.changesOnly_statFile names _, fun reply => ?_⟩
            cases reply <;> trivial

/-- With an answer missing, no more is changed than the answers before it ask for,
and the answers are never through. -/
theorem applyResolutions_changesOnly (crypto : Crypto) {conflicts : List Conflict}
    (hmissing : ∃ conflict ∈ conflicts, ¬ Answered resolutions conflict) {names : String → Prop}
    (hnames : ∀ conflict ∈ comeTo resolutions conflicts, ∀ name,
      ActsOn resolutions name conflict → names name) (resolved : Resolved) :
    Within (Effect.ChangesOnly names) (fun result => ∃ error, result = .error error)
      (applyResolutions crypto resolutions conflicts resolved) := by
  induction conflicts generalizing resolved with
  | nil => simp at hmissing
  | cons conflict rest ih =>
      obtain ⟨missing, hmem, hnone⟩ := hmissing
      by_cases hanswered : Answered resolutions conflict
      · have hcome : comeTo resolutions (conflict :: rest) =
            conflict :: comeTo resolutions rest := by
          simp [comeTo, hanswered]
        rw [hcome] at hnames
        have hlater : missing ∈ rest := by
          rcases List.mem_cons.mp hmem with rfl | hlater
          · exact absurd hanswered hnone
          · exact hlater
        rw [applyResolutions, within_bind]
        apply (applyResolution_changesOnly crypto
          (hnames conflict List.mem_cons_self) resolved).mono
        intro result _
        cases result with
        | error error => exact ⟨error, rfl⟩
        | ok next =>
            exact ih ⟨missing, hlater, hnone⟩
              (fun later hlater => hnames later (List.mem_cons_of_mem _ hlater)) next
      · have hnone : resolutionFor resolutions conflict.path = none := by
          rw [← Option.not_isSome_iff_eq_none, Option.isSome_iff_exists]
          exact hanswered
        rw [applyResolutions, applyResolution, hnone]
        exact ⟨_, rfl⟩

/-! ## Rounds with all answers -/

/-- The engine alone; anything may fail. -/
def alone (context : Context) : Setting Effect Effect.Reply World where
  performs := Performs context Genuine
  rely := Eq
  guarantee := fun _ _ _ _ => True

/-- A round with an answer missing changes no more than the answers before it ask for. -/
theorem holds_completeSync_changesOnly (crypto : Crypto) {plan : SyncPlan}
    (hmissing : ∃ conflict ∈ plan.conflicts, ¬ Answered resolutions conflict) (world : World) :
    Holds (alone context)
      (fun _ after => OnlyChanges (MayChange resolutions plan.conflicts) world after)
      (completeSync crypto plan resolutions) world := by
  have hwithin := applyResolutions_changesOnly crypto hmissing
    (fun conflict hmem name hacts =>
      (⟨conflict, hmem, hacts⟩ : MayChange resolutions plan.conflicts name))
    ⟨plan.upload, []⟩
  have hstart : OnlyChanges (MayChange resolutions plan.conflicts) world world :=
    ⟨rfl, rfl, rfl, fun _ _ => rfl⟩
  have hholds : Holds (alone context) (fun result after =>
      OnlyChanges (MayChange resolutions plan.conflicts) world after ∧ ∃ error,
        result = .error error)
      (applyResolutions crypto resolutions plan.conflicts ⟨plan.upload, []⟩) world := by
    apply hwithin.holds
    · intro before after hsame hbefore
      exact (show before = after from hsame) ▸ hbefore
    · intro effect hchanges before reply after hbefore hperform
      obtain ⟨env, _, hhandle⟩ := hperform
      refine ⟨trivial, ?_⟩
      rw [← show _ = after from congrArg Prod.snd hhandle]
      exact hbefore.handle hchanges env
    · exact hstart
  rw [completeSync, holds_bind]
  apply hholds.mono
  intro result after hafter
  obtain ⟨honly, error, herror⟩ := hafter
  rw [herror]
  exact honly

/-- An error that says an answer is missing. -/
def Misses {α : Type} (result : Except SyncEngineError α) : Prop :=
  ∃ path, result = .error (.missingResolution path)

theorem not_misses_ok {α : Type} (value : α) : ¬ Misses (.ok value : Except SyncEngineError α) := by
  rintro ⟨path, heq⟩
  cases heq

theorem Misses.of_error {α β : Type} {error : SyncEngineError}
    (hmisses : Misses (.error error : Except SyncEngineError α)) :
    Misses (.error error : Except SyncEngineError β) := by
  obtain ⟨path, heq⟩ := hmisses
  exact ⟨path, congrArg Except.error (Except.error.inj heq)⟩

theorem not_misses_onDevice {env : Env} (hgenuine : Genuine env) {α : Type} (value : α) :
    ¬ Misses (env.onDevice value) := by
  rintro ⟨path, heq⟩
  unfold Env.onDevice at heq
  split at heq
  next error hfault =>
    obtain rfl := Except.error.inj heq
    exact hgenuine path hfault
  next => cases heq

theorem not_misses_change {env : Env} (hgenuine : Genuine env) (world : World) (device : Device) :
    ¬ Misses (env.change world device).1 := by
  have hdevice := not_misses_onDevice hgenuine ()
  unfold Env.change
  cases hresult : env.onDevice () with
  | ok value => exact not_misses_ok _
  | error error =>
      rw [hresult] at hdevice
      exact hdevice

/-- Nothing is asked of a program. -/
theorem holds_anything {α : Type} (prog : Eff α) (world : World) :
    Holds (alone context) (fun _ _ => True) prog world := by
  have hwhole : Holds (alone context) (fun _ _ => True ∧ True) prog world := by
    apply (Prog.within_trivial prog).holds
    · exact fun _ _ _ _ => trivial
    · exact fun _ _ _ _ _ _ _ => ⟨trivial, trivial⟩
    · trivial
  exact hwhole.mono fun _ _ _ => trivial

/-- No operation on a file says that an answer is missing. -/
theorem holds_writeFile_genuine (path : String) (content : Bytes) (world : World) :
    Holds (alone context) (fun reply _ => ¬ Misses reply) (perform (Effect.writeFile path content))
      world := by
  rintro before rfl reply after ⟨env, hgenuine, hhandle⟩
  refine ⟨trivial, ?_⟩
  rw [← show _ = reply from congrArg Prod.fst hhandle]
  exact not_misses_change hgenuine _ _

theorem holds_deleteLocalFile_genuine (path : String) (world : World) :
    Holds (alone context) (fun reply _ => ¬ Misses reply) (perform (Effect.deleteLocalFile path))
      world := by
  rintro before rfl reply after ⟨env, hgenuine, hhandle⟩
  refine ⟨trivial, ?_⟩
  rw [← show _ = reply from congrArg Prod.fst hhandle]
  simp only [handle]
  split
  next => exact not_misses_ok _
  next => exact not_misses_change hgenuine _ _

theorem holds_statFile_genuine (path : String) (world : World) :
    Holds (alone context) (fun reply _ => ¬ Misses reply)
      (perform (Effect.statFile path)) world := by
  rintro before rfl reply after ⟨env, hgenuine, hhandle⟩
  refine ⟨trivial, ?_⟩
  rw [← show _ = reply from congrArg Prod.fst hhandle]
  simp only [handle]
  split
  next => exact not_misses_onDevice hgenuine _
  next =>
    rintro ⟨missing, heq⟩
    cases heq

theorem holds_fetchTo_genuine (crypto : Crypto) (source target : String) (world : World) :
    Holds (alone context) (fun result _ => ¬ Misses result)
      (fetchTo crypto source target) world := by
  rw [fetchTo, holds_bind]
  apply (holds_anything (perform (Effect.getFile source)) world).mono
  intro reply after _
  cases reply with
  | error error =>
      rintro ⟨path, heq⟩
      cases heq
  | ok blob =>
      simp only [decryptAndWrite]
      split
      next =>
        rintro ⟨path, heq⟩
        cases heq
      next => exact holds_writeFile_genuine target _ after

theorem holds_applyKeepRemote_genuine (crypto : Crypto) (conflict : Conflict) (world : World) :
    Holds (alone context) (fun result _ => ¬ Misses result)
      (applyKeepRemote crypto conflict) world := by
  unfold applyKeepRemote
  split
  next => exact holds_deleteLocalFile_genuine _ world
  next => exact holds_fetchTo_genuine crypto _ _ world

/-- An answer that is given is not missed. -/
theorem holds_applyResolution_genuine (crypto : Crypto) {conflict : Conflict}
    (hanswered : Answered resolutions conflict) (resolved : Resolved) (world : World) :
    Holds (alone context) (fun result _ => ¬ Misses result)
      (applyResolution crypto resolutions resolved conflict) world := by
  obtain ⟨choice, hanswer⟩ := hanswered
  rw [applyResolution, hanswer]
  simp only
  split
  next => exact not_misses_ok _
  next => exact not_misses_ok _
  next =>
    rw [holds_bind]
    apply (holds_applyKeepRemote_genuine crypto conflict world).mono
    intro reply after hreply
    cases reply with
    | error error => exact fun hmisses => hreply hmisses.of_error
    | ok value => exact not_misses_ok _
  next =>
    rw [holds_bind, writeConflictCopy, holds_bind]
    apply (holds_fetchTo_genuine crypto _ _ world).mono
    intro reply after hreply
    cases reply with
    | error error => exact fun hmisses => hreply hmisses.of_error
    | ok value =>
        simp only [holds_pure, buildUploadActionForPath, holds_bind]
        apply (holds_statFile_genuine _ after).mono
        intro reply later hreply
        cases reply with
        | error error => exact fun hmisses => hreply hmisses.of_error
        | ok file => exact not_misses_ok _

theorem holds_applyResolutions_genuine (crypto : Crypto) {conflicts : List Conflict}
    (hanswered : ∀ conflict ∈ conflicts, Answered resolutions conflict) (resolved : Resolved)
    (world : World) :
    Holds (alone context) (fun result _ => ¬ Misses result)
      (applyResolutions crypto resolutions conflicts resolved) world := by
  induction conflicts generalizing resolved world with
  | nil => exact not_misses_ok _
  | cons conflict rest ih =>
      rw [applyResolutions, holds_bind]
      apply (holds_applyResolution_genuine crypto (hanswered conflict List.mem_cons_self) resolved
        world).mono
      intro reply after hreply
      cases reply with
      | error error => exact fun hmisses => hreply hmisses.of_error
      | ok next =>
          exact ih (fun later hlater => hanswered later (List.mem_cons_of_mem _ hlater)) next after

/-- After the answers nothing refuses a round. -/
theorem holds_completeSync_genuine (crypto : Crypto) {plan : SyncPlan}
    (hanswered : ∀ conflict ∈ plan.conflicts, Answered resolutions conflict) (world : World) :
    Holds (alone context) (fun result _ => ¬ Misses result) (completeSync crypto plan resolutions)
      world := by
  rw [completeSync, holds_bind]
  apply (holds_applyResolutions_genuine crypto hanswered _ world).mono
  intro result after hresult
  cases result with
  | error error => exact fun hmisses => hresult hmisses.of_error
  | ok resolved =>
      simp only [holds_bind]
      apply (holds_anything _ after).mono
      intro uploads later _
      split
      next => exact not_misses_ok _
      next =>
        rw [holds_bind]
        apply (holds_anything _ later).mono
        intro reply final _
        cases reply with
        | error error => exact not_misses_ok _
        | ok value => exact not_misses_ok _

/-! ## Rounds refused too late -/

/-- A vault with this member. -/
def vaultOf (userId : String) : Server.Vault := { Server.emptyVault with members := [userId] }

theorem requireMember_vaultOf (userId : String) :
    Server.requireMember none (vaultOf userId) userId = .ok () := by
  have hid : Server.validVaultId (vaultOf userId).id = true :=
    (by decide : Server.validVaultId Server.emptyVault.id = true)
  unfold Server.requireMember
  rw [hid]
  simp [vaultOf, Server.attempt]

/-- A server that has the same blob under every path. -/
theorem exists_generous_server (context : Context) (haead : context.server.aead.Correct)
    (hnames : Function.Injective context.server.pathName) (blob : Bytes) :
    ∃ server : Server.State, ∀ path, Server.validPath path = true →
      Server.getFile context.server server context.userId path = .ok blob := by
  let blobs : Server.BlobStore :=
    { live := fun name => some (Server.sealBlob context.server.aead context.server.keys
        Aead.zeroNonce (vaultOf context.userId).id
        (Function.invFun context.server.pathName name) blob)
      history := fun _ _ => ∅ }
  let server : Server.State := ⟨vaultOf context.userId, blobs⟩
  have hmember : Server.requireMember none server.vault context.userId = .ok () :=
    requireMember_vaultOf context.userId
  have hbody : ∀ path, server.body context.server path = some blob := by
    intro path
    have hname := Function.leftInverse_invFun hnames path
    simp only [Server.State.body, server, blobs, hname, Option.bind_some]
    rw [Server.openBlob_sealBlob haead]
    rfl
  exact ⟨server, fun path hvalid => Server.getFile_of_body hmember hvalid (hbody path)⟩

/-- What an answer that acts leaves in the folder. -/
def Leaves (plaintext : Bytes) (resolutions : List ConflictResolution) (conflict : Conflict)
    (folder : Folder) : Prop :=
  if choiceOf resolutions conflict = some .keepBoth then
    folder[conflictCopyPath conflict.path]? = some ⟨plaintext, 0⟩
  else if conflict.remoteEntry.deleted = true then folder[conflict.path]? = none
  else folder[conflict.path]? = some ⟨plaintext, 0⟩

section Late

variable {blob plaintext : Bytes} {server : Server.State}

theorem genuine_clean : Genuine {} := by
  intro path hfault
  cases hfault

theorem performs_writeFile (path : String) (content : Bytes) (world : World) :
    Performs context Genuine (.writeFile path content) world (.ok ())
      { world with device := world.device.setFile path ⟨content, 0⟩ } :=
  ⟨{}, genuine_clean, rfl⟩

theorem reaches_fetchTo (hreads : context.crypto.decrypt blob = .ok plaintext) {source : String}
    {world : World} (hget : Server.getFile context.server world.server context.userId
      (context.crypto.pathToken source) = .ok blob) (target : String) :
    Reaches (Performs context Genuine) (fetchTo context.crypto source target) world (.pure (.ok ()))
      { world with device := world.device.setFile target ⟨plaintext, 0⟩ } := by
  have hfetched : Performs context Genuine (.getFile source) world (.ok blob) world := by
    refine ⟨{}, genuine_clean, ?_⟩
    simp [handle, Env.onNetwork, hget]
  rw [fetchTo]
  apply (reaches_perform hfetched).bind
  simp only [decryptAndWrite, hreads]
  exact reaches_perform (performs_writeFile target plaintext world)

theorem reaches_deleteLocalFile (path : String) (world : World) :
    ∃ after, Reaches (Performs context Genuine) (perform (Effect.deleteLocalFile path)) world
      (.pure (.ok ())) after ∧ after.server = world.server ∧ after.device.folder[path]? = none := by
  cases hfile : world.device.folder[path]? with
  | none =>
      refine ⟨world, reaches_perform ⟨{}, genuine_clean, ?_⟩, rfl, hfile⟩
      simp only [handle, hfile]
  | some file =>
      refine ⟨{ world with device := world.device.removeFile path },
        reaches_perform ⟨{}, genuine_clean, ?_⟩, rfl, Std.ExtTreeMap.getElem?_erase_self⟩
      simp only [handle, hfile]
      rfl

theorem reaches_applyKeepRemote (hreads : context.crypto.decrypt blob = .ok plaintext)
    {conflict : Conflict} {world : World}
    (hget : Server.getFile context.server world.server context.userId
      (context.crypto.pathToken conflict.path) = .ok blob) :
    ∃ after, Reaches (Performs context Genuine) (applyKeepRemote context.crypto conflict) world
      (.pure (.ok ())) after ∧ after.server = world.server ∧
      (if conflict.remoteEntry.deleted = true then after.device.folder[conflict.path]? = none
        else after.device.folder[conflict.path]? = some ⟨plaintext, 0⟩) := by
  cases hdeleted : conflict.remoteEntry.deleted with
  | true =>
      obtain ⟨after, hreaches, hserver, hgone⟩ := reaches_deleteLocalFile conflict.path world
      exact ⟨after, by simpa [applyKeepRemote, hdeleted] using hreaches, hserver,
        by simpa using hgone⟩
  | false =>
      have hreaches := reaches_fetchTo hreads hget conflict.path
      refine ⟨{ world with device := world.device.setFile conflict.path ⟨plaintext, 0⟩ },
        by simpa [applyKeepRemote, hdeleted] using hreaches, rfl, ?_⟩
      simp [Device.setFile]

/-- The answer to a conflict, carried out. -/
theorem reaches_applyResolution (hreads : context.crypto.decrypt blob = .ok plaintext)
    {conflict : Conflict} {world : World}
    (hget : Server.getFile context.server world.server context.userId
      (context.crypto.pathToken conflict.path) = .ok blob)
    (hanswered : Answered resolutions conflict) (resolved : Resolved) :
    ∃ next after, Reaches (Performs context Genuine)
        (applyResolution context.crypto resolutions resolved conflict) world
          (.pure (.ok next)) after ∧
      after.server = world.server ∧ (¬ Acts resolutions conflict → after = world) ∧
      (Acts resolutions conflict → Leaves plaintext resolutions conflict after.device.folder) := by
  by_cases hacts : Acts resolutions conflict
  · obtain ⟨choice, hanswer⟩ := hanswered
    have hchoice : choiceOf resolutions conflict = some (effectiveChoice choice conflict) := by
      rw [choiceOf, hanswer, Option.map_some]
    rw [applyResolution, hanswer]
    unfold Leaves
    have hcases := hacts
    unfold Acts at hcases
    rw [hchoice] at hcases ⊢
    rcases hcases with hkeep | hkeep
    · have hremote : effectiveChoice choice conflict = .keepRemote := Option.some.inj hkeep
      simp only [hremote]
      obtain ⟨after, hreaches, hserver, hleft⟩ := reaches_applyKeepRemote hreads hget
      refine ⟨resolved, after, hreaches.bind (.refl _ _), hserver, fun hidle => absurd hacts hidle,
        fun _ => ?_⟩
      simpa [hremote] using hleft
    · have hboth : effectiveChoice choice conflict = .keepBoth := Option.some.inj hkeep
      simp only [hboth]
      let after : World :=
        { world with
          device := world.device.setFile (conflictCopyPath conflict.path) ⟨plaintext, 0⟩ }
      have hcopied : Reaches (Performs context Genuine) (writeConflictCopy context.crypto conflict)
          world (.pure (.ok (conflictCopyPath conflict.path))) after := by
        rw [writeConflictCopy]
        exact (reaches_fetchTo hreads hget _).bind (.refl _ _)
      have hfile : after.device.folder[conflictCopyPath conflict.path]? = some ⟨plaintext, 0⟩ := by
        simp [after, Device.setFile]
      have hstat : Performs context Genuine (.statFile (conflictCopyPath conflict.path)) after
          (.ok ⟨plaintext, 0⟩) after := by
        refine ⟨{}, genuine_clean, ?_⟩
        simp only [handle, hfile]
        rfl
      have hbuilt : Reaches (Performs context Genuine)
          (buildUploadActionForPath context.crypto (conflictCopyPath conflict.path)) after
          (.pure (.ok (copyUpload context.crypto (conflictCopyPath conflict.path)
            ⟨plaintext, 0⟩))) after := by
        rw [buildUploadActionForPath]
        exact (reaches_perform hstat).bind (.refl _ _)
      refine ⟨_, after, hcopied.bind (hbuilt.bind (.refl _ _)), rfl,
        fun hidle => absurd hacts hidle, fun _ => ?_⟩
      simpa [hboth] using hfile
  · obtain ⟨next, hnext⟩ := applyResolution_of_not_acts context.crypto hanswered hacts resolved
    refine ⟨next, world, ?_, rfl, fun _ => rfl, fun h => absurd h hacts⟩
    rw [hnext]
    exact .refl _ _

/-- The answers before the missing one that change the folder. -/
def acting (resolutions : List ConflictResolution) (conflicts : List Conflict) : List Conflict :=
  (comeTo resolutions conflicts).filter fun conflict => Acts resolutions conflict

/-- A refused round, with what the last of these answers leaves. -/
theorem reaches_refusal (hreads : context.crypto.decrypt blob = .ok plaintext)
    {conflicts : List Conflict} (hmissing : ∃ conflict ∈ conflicts, ¬ Answered resolutions conflict)
    {world : World} (hget : ∀ conflict ∈ conflicts, Server.getFile context.server world.server
      context.userId (context.crypto.pathToken conflict.path) = .ok blob) (resolved : Resolved) :
    ∃ path after, Reaches (Performs context Genuine)
        (applyResolutions context.crypto resolutions conflicts resolved) world
        (.pure (.error (.missingResolution path))) after ∧
      (acting resolutions conflicts = [] → after = world) ∧
      ∀ last ∈ (acting resolutions conflicts).getLast?,
        Leaves plaintext resolutions last after.device.folder := by
  induction conflicts generalizing world resolved with
  | nil => simp at hmissing
  | cons conflict rest ih =>
      obtain ⟨missing, hmem, hnone⟩ := hmissing
      by_cases hanswered : Answered resolutions conflict
      · have hlater : missing ∈ rest := by
          rcases List.mem_cons.mp hmem with rfl | hlater
          · exact absurd hanswered hnone
          · exact hlater
        obtain ⟨next, between, hfirst, hserver, hidle, hleft⟩ :=
          reaches_applyResolution hreads (hget conflict List.mem_cons_self) hanswered resolved
        obtain ⟨path, after, hreaches, hsame, hlast⟩ := ih ⟨missing, hlater, hnone⟩
          (fun later hmem => hserver ▸ hget later (List.mem_cons_of_mem _ hmem)) next
        refine ⟨path, after, hfirst.bind hreaches, ?_⟩
        -- the last answer that acts is this one when none after it does
        by_cases hacts : Acts resolutions conflict
        · have hacting : acting resolutions (conflict :: rest) =
              conflict :: acting resolutions rest := by
            simp [acting, comeTo, hanswered, hacts]
          rw [hacting]
          constructor
          · intro hempty
            cases hempty
          · intro last hmem
            cases hrest : acting resolutions rest with
            | nil =>
                rw [hrest] at hmem
                obtain rfl : conflict = last := by simpa using hmem
                rw [hsame hrest]
                exact hleft hacts
            | cons other others =>
                apply hlast
                rw [hrest] at hmem ⊢
                rwa [List.getLast?_cons_cons] at hmem
        · have hacting : acting resolutions (conflict :: rest) = acting resolutions rest := by
            simp [acting, comeTo, hanswered, hacts]
          rw [hacting]
          exact ⟨fun hempty => (hsame hempty).trans (hidle hacts), hlast⟩
      · -- the missing answer: the round ends here
        have hnone : resolutionFor resolutions conflict.path = none := by
          rw [← Option.not_isSome_iff_eq_none, Option.isSome_iff_exists]
          exact hanswered
        have hacting : acting resolutions (conflict :: rest) = [] := by
          simp [acting, comeTo, hanswered]
        refine ⟨conflict.path, world, ?_, fun _ => rfl, ?_⟩
        · rw [applyResolutions, applyResolution, hnone]
          exact .refl _ _
        · rw [hacting]
          intro last hmem
          cases hmem

/-- An answer that acts finds a folder it changes. -/
theorem exists_not_leaves (plaintext : Bytes) (resolutions : List ConflictResolution)
    (conflict : Conflict) : ∃ folder : Folder, ¬ Leaves plaintext resolutions conflict folder := by
  unfold Leaves
  split
  next => exact ⟨∅, by simp⟩
  next =>
    split
    next => exact ⟨(∅ : Folder).insert conflict.path ⟨plaintext, 0⟩, by simp⟩
    next => exact ⟨∅, by simp⟩

end Late

/-- A round is refused: an answer is missing. -/
def Refused (context : Context) (plan : SyncPlan) (resolutions : List ConflictResolution)
    (world after : World) : Prop :=
  ∃ path, Reaches (Performs context Genuine) (completeSync context.crypto plan resolutions) world
    (.pure (.error (.missingResolution path))) after

theorem Refused.missing {plan : SyncPlan} {world after : World}
    (hrefused : Refused context plan resolutions world after) :
    ∃ conflict ∈ plan.conflicts, ¬ Answered resolutions conflict := by
  obtain ⟨path, hreaches⟩ := hrefused
  by_contra hall
  have hanswered : ∀ conflict ∈ plan.conflicts, Answered resolutions conflict := by
    intro conflict hmem
    by_contra hnone
    exact hall ⟨conflict, hmem, hnone⟩
  have hresult := (holds_completeSync_genuine context.crypto hanswered world).reaches
    (fun _ => rfl) hreaches
  exact hresult ⟨path, rfl⟩

/-- A refused round changes no row of the server and no bookkeeping, and of the
folder only what the answers before the missing one ask for. It can leave something
changed exactly when one of these keeps the remote version or both. -/
theorem refusal_changes_only_what_was_answered (hideal : context.Ideal) (plan : SyncPlan)
    (resolutions : List ConflictResolution)
    (hvalid : ∀ conflict ∈ plan.conflicts,
      Server.validPath (context.crypto.pathToken conflict.path) = true) :
    (∀ world after, Refused context plan resolutions world after →
      OnlyChanges (MayChange resolutions plan.conflicts) world after) ∧
    ((∀ world after, Refused context plan resolutions world after → after = world) ↔
      ((∃ conflict ∈ plan.conflicts, ¬ Answered resolutions conflict) →
        ∀ conflict ∈ comeTo resolutions plan.conflicts, ¬ Acts resolutions conflict)) := by
  have honly : ∀ world after, Refused context plan resolutions world after →
      OnlyChanges (MayChange resolutions plan.conflicts) world after := by
    intro world after hrefused
    have hmissing := hrefused.missing
    obtain ⟨path, hreaches⟩ := hrefused
    have hholds : Holds (alone context) _ _ world :=
      holds_completeSync_changesOnly context.crypto hmissing world
    exact hholds.reaches (fun _ => rfl) hreaches
  refine ⟨honly, ?_, ?_⟩
  · intro hsame hmissing conflict hmem hacts
    have hreads := hideal.crypto.decrypt_encrypt Aead.zeroNonce []
    obtain ⟨server, hget⟩ := exists_generous_server context hideal.aead hideal.pathName
      (context.crypto.encrypt Aead.zeroNonce [])
    have hfilter : conflict ∈ acting resolutions plan.conflicts :=
      List.mem_filter.mpr ⟨hmem, by simpa using hacts⟩
    obtain ⟨last, hlast⟩ := Option.isSome_iff_exists.mp
      (List.getLast?_isSome.mpr (List.ne_nil_of_mem hfilter))
    obtain ⟨folder, hchanged⟩ := exists_not_leaves [] resolutions last
    obtain ⟨path, after, hreaches, _, hleaves⟩ := reaches_refusal hreads hmissing
      (show ∀ conflict ∈ plan.conflicts, Server.getFile context.server
        (World.mk ⟨folder, ∅, none⟩ server).server _ _ = _ from
        fun conflict hmem => hget _ (hvalid conflict hmem)) ⟨plan.upload, []⟩
    have hrefused : Refused context plan resolutions ⟨⟨folder, ∅, none⟩, server⟩ after := by
      refine ⟨path, ?_⟩
      rw [completeSync]
      exact hreaches.bind (.refl _ _)
    have hleft := hleaves last hlast
    rw [hsame _ _ hrefused] at hleft
    exact hchanged hleft
  · intro hidle world after hrefused
    apply (honly world after hrefused).eq
    intro name hmay
    obtain ⟨conflict, hmem, hacts⟩ := hmay
    exact hidle hrefused.missing conflict hmem hacts.acts

/-! ## Two conflicts and one answer -/

/-- A device that has an `a` and a `c` of its own, and never saw the server's. -/
def strangerWorld : World :=
  { staleWorld with device := { staleWorld.device with base := ∅ } }

def strangerRun : Eff (Except SyncEngineError SyncPlan) × World :=
  exec (handle sampleContext) (prepareSync .sample .defaults) (List.replicate 8 {}) strangerWorld

/-- Its plan: both paths are in conflict. -/
def strangerPlan : SyncPlan :=
  (strangerRun.1.result?.bind Except.toOption).getD ⟨[], [], [], []⟩

/-- A round on this plan with the answer for one path only. -/
def halfAnswered (choice : ConflictResolutionChoice) :
    Eff (Except SyncEngineError SyncResult) × World :=
  exec (handle sampleContext) (completeSync .sample strangerPlan [⟨"a", choice⟩])
    (List.replicate 2 {}) strangerRun.2

theorem genuine_of_isNone {env : Env} (hnone : env.fault.isNone = true) : Genuine env := by
  intro path hfault
  rw [hfault] at hnone
  cases hnone

theorem halfAnswered_refused {choice : ConflictResolutionChoice}
    (hchecked : Prog.execAll (handle sampleContext) (fun env _ _ => env.fault.isNone)
      (completeSync .sample strangerPlan [⟨"a", choice⟩]) (List.replicate 2 {})
        strangerRun.2 = true)
    (hresult : (halfAnswered choice).1.result? = some (.error (.missingResolution "c"))) :
    Refused sampleContext strangerPlan [⟨"a", choice⟩] strangerRun.2 (halfAnswered choice).2 := by
  refine ⟨"c", Prog.exec_reaches_pure ?_ hchecked hresult⟩
  intro env effect world hnone
  exact ⟨env, genuine_of_isNone hnone, rfl⟩

/-- With the local version kept nothing has happened when the round is refused. -/
theorem refusal_after_keepLocal_changes_nothing :
    Refused sampleContext strangerPlan [⟨"a", .keepLocal⟩] strangerRun.2
      (halfAnswered .keepLocal).2 ∧
      ∀ world after, Refused sampleContext strangerPlan [⟨"a", .keepLocal⟩] world after →
        after = world := by
  have hfacts : (∀ conflict ∈ strangerPlan.conflicts,
        Server.validPath (Crypto.sample.pathToken conflict.path) = true) ∧
      (∀ conflict ∈ comeTo [⟨"a", .keepLocal⟩] strangerPlan.conflicts,
        ¬ Acts [⟨"a", .keepLocal⟩] conflict) ∧
      Prog.execAll (handle sampleContext) (fun env _ _ => env.fault.isNone)
        (completeSync .sample strangerPlan [⟨"a", .keepLocal⟩]) (List.replicate 2 {})
        strangerRun.2 = true ∧
      (halfAnswered .keepLocal).1.result? = some (.error (.missingResolution "c")) := by
    decide +kernel
  obtain ⟨hvalid, hidle, hchecked, hresult⟩ := hfacts
  refine ⟨halfAnswered_refused hchecked hresult, ?_⟩
  apply (refusal_changes_only_what_was_answered sampleContext_ideal strangerPlan
    [⟨"a", .keepLocal⟩] hvalid).2.mpr
  exact fun _ => hidle

/-- With the remote version kept the file is overwritten when the round is refused. -/
theorem refusal_after_keepRemote_overwrites :
    ¬ ∀ context : Context, context.Ideal → ∀ plan resolutions world after,
      Refused context plan resolutions world after → after = world := by
  intro hall
  have hfacts : Prog.execAll (handle sampleContext) (fun env _ _ => env.fault.isNone)
        (completeSync .sample strangerPlan [⟨"a", .keepRemote⟩]) (List.replicate 2 {})
        strangerRun.2 = true ∧
      (halfAnswered .keepRemote).1.result? = some (.error (.missingResolution "c")) ∧
      (halfAnswered .keepRemote).2.device.folder["a"]? ≠ strangerRun.2.device.folder["a"]? := by
    decide +kernel
  obtain ⟨hchecked, hresult, hchanged⟩ := hfacts
  have hsame := hall sampleContext sampleContext_ideal strangerPlan [⟨"a", .keepRemote⟩] _ _
    (halfAnswered_refused hchecked hresult)
  rw [hsame] at hchanged
  exact hchanged rfl

end ObSink.Engine
