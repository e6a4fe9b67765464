import ObSink.Engine.Answers
import ObSink.Engine.Sound

/-! # A user who edits while a cycle runs

Between two operations of the engine anything may happen to the world: the user
edits files, other devices sync, the bookkeeping goes. What is followed here is
one file that nobody but the engine changes until it has been read.
-/

namespace ObSink.Engine

open Prog (Setting Holds Within perform execAll)

/-- What others do, when they leave the file at a path alone. -/
def LeavesAlone (path : String) (before after : World) : Prop :=
  after.device.folder[path]? = before.device.folder[path]?

/-- An operation that replaces or removes the file at a path. -/
def Effect.Touches (path : String) : Effect → Prop
  | .writeFile other _ | .deleteLocalFile other => other = path
  | _ => False

variable {context : Context} {path : String}

theorem Effect.Uploads.untouched {effect : Effect} (huploads : effect.Uploads) :
    ¬ effect.Touches path := by
  cases effect with
  | writeFile other content => exact huploads.elim
  | deleteLocalFile other => exact huploads.elim
  | _ => exact id

/-- Every other operation leaves the file as it is. -/
theorem handle_untouched (context : Context) {effect : Effect} (huntouched : ¬ effect.Touches path)
    (env : Env) (world : World) :
    (handle context env effect world).2.device.folder[path]? = world.device.folder[path]? := by
  have hchange : ∀ device : Device, device.folder[path]? = world.device.folder[path]? →
      (env.change world device).2.device.folder[path]? = world.device.folder[path]? := by
    intro device hfile
    rcases env.change_cases world device with hdone | ⟨_, hfailed⟩
    · rw [hdone]
      exact hfile
    · rw [hfailed]
  cases effect with
  | writeFile other content =>
      exact hchange _ (Std.ExtTreeMap.getElem?_insert_of_ne _ _ huntouched)
  | deleteLocalFile other =>
      simp only [handle]
      split
      next => rfl
      next => exact hchange _ (Std.ExtTreeMap.getElem?_erase_of_ne _ huntouched)
  | saveRemoteCache cache => exact hchange _ rfl
  | saveBase manifest => exact hchange _ rfl
  | loadRemoteCache =>
      simp only [handle]
      split <;> rfl
  | statFile other =>
      simp only [handle]
      split <;> rfl
  | sealFile other =>
      simp only [handle]
      split <;> rfl
  | _ => rfl

/-- How often an operation reads the file at a path for an upload. -/
def Effect.reads (path : String) : Effect → Nat
  | .sealFile other => if other = path then 1 else 0
  | _ => 0

/-- The engine beside a user who leaves one file alone until it has been read so often as it is
due to be. Any operation may fail. The number in a state counts the reads. -/
def beside (context : Context) (path : String) (due : Nat)
    (guarantee : World → (effect : Effect) → effect.Reply → World → Prop) :
    Setting Effect Effect.Reply (World × Nat) where
  performs := fun effect before reply after =>
    Performs context (fun _ => True) effect before.1 reply after.1 ∧
      after.2 = before.2 + effect.reads path
  rely := fun before after =>
    after.2 = before.2 ∧ (before.2 < due → LeavesAlone path before.1 after.1)
  guarantee := fun before effect reply after => guarantee before.1 effect reply after.1

/-- The file at the path is what it was. -/
def Standing (path : String) (file? : Option StoredFile) (world : World) : Prop :=
  world.device.folder[path]? = file?

theorem Standing.untouched {file? : Option StoredFile} {effect : Effect}
    (huntouched : ¬ effect.Touches path) {before after : World} {reply : effect.Reply}
    (hperform : Performs context (fun _ => True) effect before reply after)
    (hstanding : Standing path file? before) : Standing path file? after := by
  obtain ⟨env, _, hhandle⟩ := hperform
  have hsame := handle_untouched context huntouched env before
  rw [hhandle] at hsame
  exact hsame.trans hstanding

/-- The file has been read so often, and if it is still due it is what it was. -/
structure Awaits (path : String) (due : Nat) (file? : Option StoredFile) (reads : Nat)
    (state : World × Nat) : Prop where
  count : state.2 = reads
  standing : reads < due → Standing path file? state.1

theorem Awaits.rely {due reads : Nat} {file? : Option StoredFile} {before after : World × Nat}
    (hcount : after.2 = before.2) (hrely : before.2 < due → LeavesAlone path before.1 after.1)
    (hawaits : Awaits path due file? reads before) : Awaits path due file? reads after where
  count := hcount.trans hawaits.count
  standing := by
    intro hdue
    have halone := hrely (hawaits.count ▸ hdue)
    unfold LeavesAlone at halone
    exact halone.trans (hawaits.standing hdue)

theorem Awaits.untouched {due reads : Nat} {file? : Option StoredFile} {effect : Effect}
    (huntouched : ¬ effect.Touches path) {before after : World × Nat} {reply : effect.Reply}
    (hperform : Performs context (fun _ => True) effect before.1 reply after.1)
    (hcount : after.2 = before.2 + effect.reads path)
    (hawaits : Awaits path due file? reads before) :
    Awaits path due file? (reads + effect.reads path) after where
  count := by rw [hcount, hawaits.count]
  standing := by
    intro hdue
    exact (hawaits.standing (by omega)).untouched huntouched hperform

/-- A program of operations that neither touch nor read the file, each of which gives the
guarantee. -/
theorem holds_untouched {guarantee : World → (effect : Effect) → effect.Reply → World → Prop}
    {allowed : Effect → Prop}
    (huntouched : ∀ effect, allowed effect → ¬ effect.Touches path ∧ effect.reads path = 0)
    (hguarantee : ∀ effect, allowed effect → ∀ before reply after,
      guarantee before effect reply after)
    {α : Type} {prog : Eff α} {post : α → Prop} (hwithin : Within allowed post prog)
    {due reads : Nat} {file? : Option StoredFile} {state : World × Nat}
    (hawaits : Awaits path due file? reads state) :
    Holds (beside context path due guarantee)
      (fun value after => Awaits path due file? reads after ∧ post value) prog state := by
  apply hwithin.holds
  · rintro before after ⟨hcount, hrely⟩ hbefore
    exact hbefore.rely hcount hrely
  · rintro effect hallowed before reply after hbefore ⟨hperform, hcount⟩
    obtain ⟨hleaves, hreads⟩ := huntouched effect hallowed
    have hafter := hbefore.untouched hleaves hperform hcount
    rw [hreads] at hafter
    exact ⟨hguarantee effect hallowed before.1 reply after.1, hafter⟩
  · exact hawaits

/-! ## What the answers do to a path -/

/-- The local side of the path is uploaded. -/
def KeepsLocal (resolutions : List ConflictResolution) (path : String)
    (conflict : Conflict) : Prop :=
  conflict.path = path ∧ conflict.localEntry.deleted = false ∧
    (choiceOf resolutions conflict = some .keepLocal ∨
      choiceOf resolutions conflict = some .keepBoth)

/-- The server's side of the path takes the place of the local one. -/
def KeepsRemote (resolutions : List ConflictResolution) (path : String)
    (conflict : Conflict) : Prop :=
  conflict.path = path ∧ choiceOf resolutions conflict = some .keepRemote

/-- The conflict's copy goes to the path. -/
def CopiesTo (resolutions : List ConflictResolution) (path : String) (conflict : Conflict) : Prop :=
  choiceOf resolutions conflict = some .keepBoth ∧ conflictCopyPath conflict.path = path

/-- The answer writes or removes the file at the path. -/
def Overwrites (resolutions : List ConflictResolution) (path : String)
    (conflict : Conflict) : Prop :=
  KeepsRemote resolutions path conflict ∨ CopiesTo resolutions path conflict

/-! ## Runs with edits -/

/-- The user edits files of the folder at will. -/
def UserEdits (before after : World) : Prop := ∃ folder, after = before.edit folder

/-- The engine beside such a user. Any operation may fail. -/
def editing (context : Context)
    (guarantee : World → (effect : Effect) → effect.Reply → World → Prop) :
    Setting Effect Effect.Reply World where
  performs := Performs context fun _ => True
  rely := UserEdits
  guarantee := guarantee

/-- What the environment brings to an operation, an edit before it included. -/
structure EditedEnv where
  env : Env
  folder : Option Folder

namespace EditedEnv

def edit (edited : EditedEnv) (world : World) : World :=
  world.edit (edited.folder.getD world.device.folder)

def handle (context : Context) (edited : EditedEnv) (effect : Effect) (world : World) :
    effect.Reply × World :=
  Engine.handle context edited.env effect (edited.edit world)

end EditedEnv

/-- What is guaranteed beside any user passes a check along an execution with some
edits. -/
theorem execAll_of_editing
    {guarantee : World → (effect : Effect) → effect.Reply → World → Prop}
    {check : EditedEnv → Effect → World → Bool}
    (hcheck : ∀ edited effect world, guarantee (edited.edit world) effect
      (edited.handle context effect world).1 (edited.handle context effect world).2 →
      check edited effect world = true)
    {α : Type} {post : α → World → Prop} {prog : Eff α} {world : World}
    (hholds : Holds (editing context guarantee) post prog world) (envs : List EditedEnv) :
    execAll (EditedEnv.handle context) check prog envs world = true := by
  have hrely : ∀ (edited : EditedEnv) (world : World), UserEdits world (edited.edit world) :=
    fun _ _ => ⟨_, rfl⟩
  have hperforms : ∀ (edited : EditedEnv) (effect : Effect) (world : World),
      Performs context (fun _ => True) effect (edited.edit world)
        (edited.handle context effect world).1 (edited.handle context effect world).2 :=
    fun edited _ _ => ⟨edited.env, trivial, rfl⟩
  exact hholds.execAll hrely hperforms hcheck envs

end ObSink.Engine
