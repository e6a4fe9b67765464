import ObSink.Engine.Batches
import ObSink.Engine.Rows
import ObSink.Lib.Parallel
import ObSink.Server.Race

/-! # Any number of devices

Devices of one vault beside its server, each in its own cycle. They take their
operations in any order, so between two operations of one device the others may
do anything a cycle does. Users edit their folders at any time; nobody else looks
into a folder, so an edit is one before the device's next operation.
-/

namespace ObSink.Engine

open Prog (Holds Process Rules Within perform holds_bind holds_perform holds_pure within_bind
  within_perform within_pure)

/-- The devices that share a vault: its keys, its server, and of each device its
user and what it leaves out. -/
structure Fleet (ι : Type) where
  crypto : Crypto
  server : Server.Config
  userId : ι → String
  ignore : ι → IgnoreRules

variable {ι : Type}

def Fleet.context (fleet : Fleet ι) (i : ι) : Context :=
  ⟨fleet.crypto, fleet.server, fleet.userId i, fleet.ignore i⟩

/-! ## A cycle in parts -/

/-- Where a cycle stands between two of its parts. -/
inductive Stop where
  | idle
  | planned (plan : SyncPlan)
  | resolved (plan : SyncPlan) (answered : Resolved)
  | uploaded (holdBack : List String)

/-- The part of a cycle that follows: `prepareSync`, the answers, the uploads, the
checkpoint. -/
def Stop.part (crypto : Crypto) (ignore : IgnoreRules) : Stop → Eff Stop
  | .idle => do
      match ← prepareSync crypto ignore with
      | .error _ => pure .idle
      | .ok plan => pure (.planned plan)
  | .planned plan => do
      let resolutions ← perform (Effect.ask plan.conflicts)
      match ← applyResolutions crypto resolutions plan.conflicts ⟨plan.upload, []⟩ with
      | .error _ => pure .idle
      | .ok answered => pure (.resolved plan answered)
  | .resolved plan answered => do
      let uploads ← runUploads answered.uploads
        (plan.failures.map SyncFailure.path ++ answered.deferred.map Conflict.path)
      if (plan.failures ++ uploads.failures).any SyncFailure.fatal then pure .idle
      else pure (.uploaded uploads.holdBack)
  | .uploaded holdBack => do
      let _ ← checkpoint crypto holdBack
      pure .idle

/-- The parts that follow a stop, as far as the count goes. -/
def Stop.parts (crypto : Crypto) (ignore : IgnoreRules) : Nat → Stop → Eff Unit
  | 0, _ => pure ()
  | count + 1, stop => do
      match ← stop.part crypto ignore with
      | .idle => pure ()
      | next => next.parts crypto ignore count

/-- A whole cycle is its four parts. -/
theorem Stop.parts_idle (crypto : Crypto) (ignore : IgnoreRules) :
    Stop.parts crypto ignore 4 .idle = (do let _ ← cycle crypto ignore; pure ()) := by
  simp only [Stop.parts, cycle, completeSync, Stop.part, bind_assoc]
  refine bind_congr fun prepared => ?_
  cases prepared with
  | error error => rfl
  | ok plan =>
      simp only [pure_bind, bind_assoc]
      refine bind_congr fun resolutions => ?_
      refine bind_congr fun answered => ?_
      cases answered with
      | error error => rfl
      | ok answered =>
          simp only [pure_bind, bind_assoc]
          refine bind_congr fun uploads => ?_
          split
          next => rfl
          next =>
            simp only [pure_bind, bind_assoc]
            refine bind_congr fun checked => ?_
            cases checked <;> rfl

/-! ## Runs -/

/-- A device, with what the part it is in started from, the folders it has had,
and the conflicts its user has answered for the local side. -/
structure Party where
  device : Device
  stop : Stop := .idle
  past : List Folder := []
  insisted : List Conflict := []

/-- The conflicts an operation brings an answer for the local side to. -/
def insistedBy : (effect : Effect) → effect.Reply → List Conflict
  | .ask conflicts, answers => conflicts.filter fun conflict =>
      resolutionFor answers conflict.path = some .keepLocal ||
        resolutionFor answers conflict.path = some .keepBoth
  | _, _ => []

namespace Party

/-- The folders so far, the present one first. -/
def folders (own : Party) : List Folder := own.device.folder :: own.past

/-- What is left of an operation. -/
def note (own : Party) (effect : Effect) (reply : effect.Reply) (device : Device) : Party :=
  { own with device, past := own.folders, insisted := own.insisted ++ insistedBy effect reply }

/-- The user edits the folder. -/
def edit (own : Party) (folder : Folder) : Party :=
  { own with device := { own.device with folder }, past := own.folders }

/-- The user has edited the folder any number of times. -/
def Edited (own own' : Party) : Prop := ∃ folders : List Folder, folders.foldl edit own = own'

/-- The folder has had a file of this content at the path. -/
def Held (crypto : Crypto) (own : Party) (path hash : String) : Prop :=
  ∃ folder ∈ own.folders, ∃ file ∈ folder.toList,
    normalizePath file.1 = path ∧ crypto.contentHmac file.2.content = hash

/-- The user has seen the version as the remote side of a conflict and kept the
local one. -/
def Insisted (own : Party) (path hash : String) : Prop :=
  ∃ conflict ∈ own.insisted, conflict.path = path ∧ conflict.remoteEntry.deleted = false ∧
    conflict.remoteEntry.hash = hash

/-- The version is not news to the device. -/
def Knows (crypto : Crypto) (own : Party) (path hash : String) : Prop :=
  own.Held crypto path hash ∨ own.Insisted path hash

instance (crypto : Crypto) (own : Party) (path hash : String) :
    Decidable (own.Held crypto path hash) :=
  inferInstanceAs (Decidable (∃ folder ∈ own.folders, ∃ file ∈ folder.toList, _ ∧ _))

instance (own : Party) (path hash : String) : Decidable (own.Insisted path hash) :=
  inferInstanceAs (Decidable (∃ conflict ∈ own.insisted, _ ∧ _ ∧ _))

instance (crypto : Crypto) (own : Party) (path hash : String) :
    Decidable (own.Knows crypto path hash) :=
  inferInstanceAs (Decidable (_ ∨ _))

end Party

/-- One operation of a device, on the server and its own part. -/
def Operates (fleet : Fleet ι) (i : ι) (effect : Effect) (before : Server.State × Party)
    (reply : effect.Reply) (after : Server.State × Party) : Prop :=
  ∃ env device, handle (fleet.context i) env effect ⟨before.2.device, before.1⟩ =
      (reply, ⟨device, after.1⟩) ∧
    after.2 = before.2.note effect reply device

/-- A device between two parts of its cycle goes on with the next one. -/
def GoesOn (fleet : Fleet ι) (i : ι) (stop : Stop) (world : Server.State × Party)
    (process : Process Effect Effect.Reply Party Stop) : Prop :=
  process = ⟨stop.part fleet.crypto (fleet.ignore i), { world.2 with stop }⟩

/-! ## The server goes on -/

/-- A live row has a hash. -/
def Hashed (server : Server.State) : Prop :=
  ∀ token : String, version server.vault.files[token]? ≠ .present ""

/-- What the requests of others do to the server. -/
structure Proceeds (before after : Server.State) : Prop where
  revision : before.vault.revision ≤ after.vault.revision
  files : after.vault.revision = before.vault.revision → after.vault.files = before.vault.files
  hashed : Hashed before → Hashed after

theorem Proceeds.refl (server : Server.State) : Proceeds server server :=
  ⟨le_rfl, fun _ => rfl, id⟩

theorem Proceeds.trans {first second third : Server.State} (hfirst : Proceeds first second)
    (hsecond : Proceeds second third) : Proceeds first third where
  revision := hfirst.revision.trans hsecond.revision
  files := by
    intro hsame
    have hmiddle : second.vault.revision = first.vault.revision :=
      le_antisymm (hsame ▸ hsecond.revision) hfirst.revision
    rw [hsecond.files (hsame.trans hmiddle.symm), hfirst.files hmiddle]
  hashed := hsecond.hashed ∘ hfirst.hashed

/-- What is written has a hash, unless it is a tombstone. -/
theorem version_written_ne {request : Server.Request} {current : Option FileEntry} {now : Nat}
    {entry : FileEntry} (hwrites : request.Writes current now entry) :
    version (some entry) ≠ .present "" := by
  cases request with
  | put params body =>
      obtain ⟨⟨contentHash, hhash, rfl⟩, -⟩ := hwrites
      have hne := Server.PutParams.hash_ne_empty hhash
      simpa [version, Server.putEntry] using hne
  | delete token parentHash =>
      obtain ⟨rfl, -⟩ := hwrites
      simp [version, Server.tombstone]

theorem proceeds_serve (config : Server.Config) (call : Server.Call) (server : Server.State) :
    Proceeds server (call.serve config server).2 := by
  rcases Server.serve_vault config call server with ⟨entry, hwritten, hvault⟩ | ⟨-, hvault⟩
  · refine ⟨by simp [hvault, Server.Vault.upsertEntry], ?_, ?_⟩
    · intro hsame
      simp [hvault, Server.Vault.upsertEntry] at hsame
    · intro hhashed token
      have hwrites := Server.writes_of_serve hwritten
      rw [hvault]
      by_cases htoken : call.path = token
      · simpa [Server.Vault.upsertEntry, htoken] using version_written_ne hwrites
      · have hold := Std.ExtTreeMap.getElem?_insert_of_ne server.vault.files entry htoken
        have hrow := hhashed token
        rwa [← hold] at hrow
  · refine ⟨by rw [hvault], fun _ => by rw [hvault], ?_⟩
    intro hhashed token
    rw [hvault]
    exact hhashed token

theorem proceeds_settled (config : Server.Config) (calls : List Server.Call)
    (server : Server.State) : Proceeds server (Server.settled config server calls) := by
  induction calls generalizing server with
  | nil => exact .refl _
  | cons call rest ih => exact (proceeds_serve config call server).trans (ih _)

end ObSink.Engine
