import ObSink.Engine.Converge

/-! # A cycle that is cut off

Whatever a cycle has done when it is cut off, its paths still settle to what
they would have settled to; so a later cycle that completes ends where the
first one would have ended.
-/

namespace ObSink.Engine

open Prog (Holds Reaches exec)

/-- Any number of cycles, each cut off somewhere. -/
inductive Interrupted (context : Context)
    (performs : (effect : Effect) → World → effect.Reply → World → Prop) : World → World → Prop
  | none (world : World) : Interrupted context performs world world
  | cut {world middle after : World} {rest : Eff (Except SyncEngineError (SyncPlan × SyncResult))}
      (hcut : Reaches performs (cycle context.crypto context.ignore) world rest middle)
      (hrest : Interrupted context performs middle after) :
      Interrupted context performs world after

/-- A cycle that completes after any cuts ends with the versions of one that was
never cut off. -/
def Resumes (context : Context)
    (performs : (effect : Effect) → World → effect.Reply → World → Prop) (world : World) : Prop :=
  ∀ full finished, Reaches performs (cycle context.crypto context.ignore) world (.pure full)
    finished → ∀ cut, Interrupted context performs world cut →
  ∀ value after, Reaches performs (cycle context.crypto context.ignore) cut (.pure value) after →
    ∀ path, (after.view context path).versions context.crypto =
      (finished.view context path).versions context.crypto

section Resume

variable {context : Context} {choose : String → ConflictResolutionChoice} {sizes : Bool}

/-- Wherever a cycle is cut off, the device is in good order and every path
settles as before. -/
theorem settles_of_reaches (hideal : context.Ideal) (hchoose : Decisive choose)
    {world after : World}
    {rest : Eff (Except SyncEngineError (SyncPlan × SyncResult))} (hsound : Sound context world)
    (hreaches : Reaches (Undisturbed context choose sizes)
      (cycle context.crypto context.ignore) world rest after) :
    Sound context after ∧ ∀ path, (after.view context path).goal context choose path =
      (world.view context path).goal context choose path := by
  let target := fun path => (world.view context path).goal context choose path
  let inv := fun later : World => Sound context later ∧
    ∀ path, (later.view context path).goal context choose path = target path
  have hcycle := @holds_cycle context choose sizes target hideal hchoose world hsound fun _ => rfl
  refine hcycle.reaches_inv (fun _ => rfl) inv ?_ ⟨hsound, fun _ => rfl⟩ hreaches
  intro before effect reply later hguarantee
  exact ⟨fun path => (hguarantee path).1, fun path => (hguarantee path).2.1⟩

theorem settles_of_interrupted (hideal : context.Ideal) (hchoose : Decisive choose)
    {world after : World} (hsound : Sound context world)
    (hcuts : Interrupted context (Undisturbed context choose sizes) world after) :
    Sound context after ∧ ∀ path, (after.view context path).goal context choose path =
      (world.view context path).goal context choose path := by
  induction hcuts with
  | none world => exact ⟨hsound, fun _ => rfl⟩
  | cut hcut _ ih =>
      obtain ⟨hmiddle, hgoal⟩ := settles_of_reaches hideal hchoose hsound hcut
      obtain ⟨hafter, hgoals⟩ := ih hmiddle
      exact ⟨hafter, fun path => (hgoals path).trans (hgoal path)⟩

/-- A cycle that completes leaves every path where it settles. -/
theorem completes_at_goal (hideal : context.Ideal) (hchoose : Decisive choose)
    {world after : World} {value : Except SyncEngineError (SyncPlan × SyncResult)}
    (hsound : Sound context world)
    (hreaches : Reaches (Undisturbed context choose sizes)
      (cycle context.crypto context.ignore) world (.pure value) after) :
    ∀ path, (after.view context path).versions context.crypto =
      (world.view context path).goal context choose path := by
  have hcycle := @holds_cycle context choose sizes
    (fun path => (world.view context path).goal context choose path) hideal hchoose world hsound
    fun _ => rfl
  obtain ⟨plan, result, rfl, _, hdone⟩ := hcycle.reaches (fun _ => rfl) hreaches
  exact hdone.versions

/-- Cut off anywhere and any number of times, a cycle in a vault with room for
its files resumes. -/
theorem interrupted_cycle_resumes (hideal : context.Ideal) (hchoose : Decisive choose)
    {world : World} (hsound : Sound context world) :
    Resumes context (Undisturbed context choose true) world := by
  intro full finished hfull cut hcuts value after hresumed path
  obtain ⟨hcut, hgoals⟩ := settles_of_interrupted hideal hchoose hsound hcuts
  calc (after.view context path).versions context.crypto
      = (cut.view context path).goal context choose path :=
        completes_at_goal hideal hchoose hcut hresumed path
    _ = (world.view context path).goal context choose path := hgoals path
    _ = (finished.view context path).versions context.crypto :=
        (completes_at_goal hideal hchoose hsound hfull path).symm

end Resume

/-! ## A small run, and what stands outside -/

/-- The sample device cut off once its file is on the server. -/
theorem interrupted_cycle_resumes_in_sample :
    let run := exec (handle sampleContext) (cycle .sample .defaults)
    let finished := run (List.replicate 17 {}) sampleWorld
    let cut := run (List.replicate 9 {}) sampleWorld
    let resumed := run (List.replicate 17 {}) cut.2
    cut.1.result? = none ∧ resumed.1.result?.isSome = true ∧
      ∀ path, (resumed.2.view sampleContext path).versions .sample =
        (finished.2.view sampleContext path).versions .sample := by
  intro run finished cut resumed
  let performs := Undisturbed sampleContext (fun _ => .keepLocal) true
  let passes := Prog.execAll (handle sampleContext)
    (undisturbedHere sampleContext (fun _ => .keepLocal) true) (cycle .sample .defaults)
  have hruns : passes (List.replicate 17 {}) sampleWorld = true ∧
      passes (List.replicate 9 {}) sampleWorld = true ∧
      passes (List.replicate 17 {}) cut.2 = true ∧ finished.1.result?.isSome = true ∧
      cut.1.result? = none ∧ resumed.1.result?.isSome = true := by
    decide +kernel
  obtain ⟨hpassFull, hpassCut, hpassRest, hfinished, hopen, hresumed⟩ := hruns
  obtain ⟨full, hfull⟩ := Option.isSome_iff_exists.mp hfinished
  obtain ⟨value, hvalue⟩ := Option.isSome_iff_exists.mp hresumed
  have hwhole : Reaches performs (cycle .sample .defaults) sampleWorld (.pure full) finished.2 :=
    Prog.exec_reaches_pure undisturbed_of_check hpassFull hfull
  have hcut : Reaches performs (cycle .sample .defaults) sampleWorld cut.1 cut.2 :=
    Prog.exec_reaches undisturbed_of_check hpassCut
  have hrest : Reaches performs (cycle .sample .defaults) cut.2 (.pure value) resumed.2 :=
    Prog.exec_reaches_pure undisturbed_of_check hpassRest hvalue
  refine ⟨hopen, hresumed, ?_⟩
  exact interrupted_cycle_resumes sampleContext_ideal (fun _ => Or.inl rfl) sampleWorld_sound
    full finished.2 hwhole cut.2 (.cut hcut (.none _)) value resumed.2 hrest

/-- Good order after a concrete run. -/
theorem Sound.exec {context : Context} {world : World} (hsound : Sound context world)
    (hideal : context.Ideal) (envs : List Env)
    (hall : Prog.execAll (handle context) (undisturbedHere context (fun _ => .keepLocal) true)
      (cycle context.crypto context.ignore) envs world = true) :
    Sound context (exec (handle context) (cycle context.crypto context.ignore) envs world).2 :=
  (settles_of_reaches hideal (fun _ => Or.inl rfl) hsound
    (Prog.exec_reaches undisturbed_of_check hall)).1

/-- Three concrete runs, the second cut off and the third after it, that end
differently. -/
def endsDiffer (context : Context) (check : Env → Effect → World → Bool) (world : World)
    (full cut rest : List Env) (path : String) : Prop :=
  let run := exec (handle context) (cycle context.crypto context.ignore)
  let passes := Prog.execAll (handle context) check (cycle context.crypto context.ignore)
  passes full world = true ∧ passes cut world = true ∧ passes rest (run cut world).2 = true ∧
    (run full world).1.result?.isSome = true ∧
    (run rest (run cut world).2).1.result?.isSome = true ∧
    ((run rest (run cut world).2).2.view context path).versions context.crypto ≠
      ((run full world).2.view context path).versions context.crypto

instance (context : Context) (check : Env → Effect → World → Bool) (world : World)
    (full cut rest : List Env) (path : String) :
    Decidable (endsDiffer context check world full cut rest path) := by
  unfold endsDiffer
  infer_instance

theorem not_resumes_of_ends {context : Context}
    {performs : (effect : Effect) → World → effect.Reply → World → Prop}
    {check : Env → Effect → World → Bool}
    (hcheck : ∀ env effect world, check env effect world = true →
      performs effect world (handle context env effect world).1 (handle context env effect world).2)
    {world : World} {full cut rest : List Env} {path : String}
    (hends : endsDiffer context check world full cut rest path) :
    ¬ Resumes context performs world := by
  intro hresumes
  obtain ⟨hpassFull, hpassCut, hpassRest, hfull, hrest, hne⟩ := hends
  obtain ⟨value, hvalue⟩ := Option.isSome_iff_exists.mp hfull
  obtain ⟨value', hvalue'⟩ := Option.isSome_iff_exists.mp hrest
  exact hne (hresumes value _ (Prog.exec_reaches_pure hcheck hpassFull hvalue) _
    (.cut (Prog.exec_reaches hcheck hpassCut) (.none _)) value' _
    (Prog.exec_reaches_pure hcheck hpassRest hvalue') path)

/-- A vault with room for one small file. -/
def tightContext : Context :=
  { sampleContext with server := { Server.sampleConfig with maxVaultBytes := 40 } }

theorem tightContext_ideal : tightContext.Ideal :=
  ⟨sampleContext_ideal.crypto, sampleContext_ideal.aead, sampleContext_ideal.pathName⟩

/-- The file the vault has room for is gone from the folder, another is new. -/
def tightWorld : World :=
  (exec (handle tightContext) (cycle .sample .defaults) (List.replicate 17 {})
    (emptyWorld.edit (oneFile "d" [1]))).2.edit (oneFile "b" [2])

theorem tightWorld_sound : Sound tightContext tightWorld := by
  have hstart : Sound tightContext (emptyWorld.edit (oneFile "d" [1])) :=
    (emptyWorld_sound rfl).edit (oneFile_named _ ⟨by decide, by decide⟩)
  have hafter := hstart.exec tightContext_ideal (List.replicate 17 {}) (by decide +kernel)
  exact hafter.edit (oneFile_named _ ⟨by decide, by decide⟩)

/-- A file whose name has a backslash, once in step with the server, where the
path it stands for has changed. -/
def backslashWorld : World where
  device := { folder := oneFile "a\\b" [2], cache := none
              base := (∅ : Manifest).insert "a/b" { hash := Crypto.sample.contentHmac [2] } }
  server := (exec (handle sampleContext) (cycle .sample .defaults) (List.replicate 17 {})
    (emptyWorld.edit (oneFile "a/b" [1]))).2.server

theorem backslashWorld_honest : Honest sampleContext backslashWorld.server := by
  have hstart : Sound sampleContext (emptyWorld.edit (oneFile "a/b" [1])) :=
    (emptyWorld_sound rfl).edit (oneFile_named _ ⟨by decide, by decide⟩)
  exact (hstart.exec sampleContext_ideal (List.replicate 17 {}) (by decide +kernel)).honest

/-- Without the room, or with a backslash in a name, a cycle need not resume.
The put of `b` is over the quota until the delete of `d` behind it has been
accepted, so only a later cycle brings it to the server. The file `a\b` hides the
download of `a/b` from the next cycle, which takes it for a local edit. -/
theorem interrupted_cycle_differs_in_samples :
    (¬ ∀ context choose world, context.Ideal → Decisive choose → Sound context world →
      Resumes context (Faultless context choose) world) ∧
    ¬ ∀ context choose world, context.Ideal → Decisive choose → Honest context world.server →
      Resumes context (Undisturbed context choose true) world := by
  have hdecisive : Decisive fun _ => .keepLocal := fun _ => Or.inl rfl
  constructor
  · intro hresumes
    have hends : endsDiffer tightContext (faultlessHere tightContext fun _ => .keepLocal) tightWorld
        (List.replicate 25 {}) (List.replicate 12 {}) (List.replicate 25 {}) "b" := by
      decide +kernel
    exact not_resumes_of_ends faultless_of_check hends
      (hresumes tightContext _ tightWorld tightContext_ideal hdecisive tightWorld_sound)
  · intro hresumes
    have hends : endsDiffer sampleContext (undisturbedHere sampleContext (fun _ => .keepLocal) true)
        backslashWorld (List.replicate 25 {}) (List.replicate 25 {})
          (List.replicate 25 {}) "a/b" := by
      decide +kernel
    exact not_resumes_of_ends undisturbed_of_check hends
      (hresumes sampleContext _ backslashWorld sampleContext_ideal hdecisive backslashWorld_honest)

end ObSink.Engine
