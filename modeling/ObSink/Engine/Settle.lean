import ObSink.Engine.Answers
import ObSink.Engine.Sound

/-! # Where an undisturbed cycle takes a path

`settle` is what a cycle is for: the versions a path ends with, given those it
starts with and the user's answer. A cycle that nobody disturbs keeps at every
moment what its paths settle to.
-/

namespace ObSink.Engine

open Prog (Setting Holds)

/-- The versions of a path in the folder, on the server and in the base. -/
structure Versions where
  folder : Version
  server : Version
  base : Version
  deriving DecidableEq, Repr

/-- One version everywhere. -/
def Versions.all (version : Version) : Versions := ⟨version, version, version⟩

/-- Ignored paths only enter the base. Else the side that changed wins; a
conflict goes by the answer. A file the server has no room for stays back. -/
def settle (ignored tooLarge : Bool) (choice : ConflictResolutionChoice) (found : Versions) :
    Versions :=
  if ignored then { found with base := found.server }
  else if found.folder = found.server ∨ found.folder = found.base then .all found.server
  else if found.server = found.base ∨ choice = .keepLocal then
    if tooLarge then found else .all found.folder
  else .all found.server

def View.versions (crypto : Crypto) (view : View) : Versions where
  folder := fileVersion crypto view.file
  server := version view.row
  base := version view.base

/-- Nonce and tag. -/
def sealOverhead : Nat := 28

/-- The ciphertext of the file is over the server's limit. -/
def View.tooLarge (view : View) : Bool :=
  view.file.any fun file => view.maxFileSize < file.content.length + sealOverhead

/-- What the path settles to. -/
def View.goal (context : Context) (choose : String → ConflictResolutionChoice) (path : String)
    (view : View) : Versions :=
  settle (context.ignore.isIgnored path) view.tooLarge (choose path)
    (view.versions context.crypto)

/-! ## The setting -/

/-- The user answers each conflict by `choose`. -/
def answersBy (choose : String → ConflictResolutionChoice) :
    (effect : Effect) → effect.Reply → Bool
  | .ask conflicts, answers => conflicts.all fun conflict =>
      resolutionFor answers conflict.path = some (choose conflict.path)
  | _, _ => true

/-- No put is over the quota, and with `sizes` off none is over the file size
limit. -/
def withinLimits (sizes : Bool) : (effect : Effect) → effect.Reply → Bool
  | .applyOp _, .error error => error.statusCode ≠ 507 && (sizes || error.statusCode ≠ 413)
  | _, _ => true

/-- An operation with nothing failing. -/
def Faultless (context : Context) (choose : String → ConflictResolutionChoice)
    (effect : Effect) (before : World) (reply : effect.Reply) (after : World) : Prop :=
  Performs context Env.Clean effect before reply after ∧ answersBy choose effect reply = true

/-- An operation with nothing failing that meets no limit. -/
def Undisturbed (context : Context) (choose : String → ConflictResolutionChoice) (sizes : Bool)
    (effect : Effect) (before : World) (reply : effect.Reply) (after : World) : Prop :=
  Faultless context choose effect before reply after ∧ withinLimits sizes effect reply = true

/-- The same, checked of one operation of a concrete run. -/
def faultlessHere (context : Context) (choose : String → ConflictResolutionChoice) (env : Env)
    (effect : Effect) (world : World) : Bool :=
  env.fault = none && env.serverFault = none &&
    answersBy choose effect (handle context env effect world).1

theorem faultless_of_check {context : Context} {choose : String → ConflictResolutionChoice}
    (env : Env) (effect : Effect) (world : World)
    (hcheck : faultlessHere context choose env effect world = true) :
    Faultless context choose effect world (handle context env effect world).1
      (handle context env effect world).2 := by
  simp only [faultlessHere, Bool.and_eq_true, decide_eq_true_eq] at hcheck
  obtain ⟨⟨hfault, hserver⟩, hanswers⟩ := hcheck
  exact ⟨⟨env, ⟨hfault, hserver⟩, rfl⟩, hanswers⟩

def undisturbedHere (context : Context) (choose : String → ConflictResolutionChoice) (sizes : Bool)
    (env : Env) (effect : Effect) (world : World) : Bool :=
  faultlessHere context choose env effect world &&
    withinLimits sizes effect (handle context env effect world).1

theorem undisturbed_of_check {context : Context} {choose : String → ConflictResolutionChoice}
    {sizes : Bool} (env : Env) (effect : Effect) (world : World)
    (hcheck : undisturbedHere context choose sizes env effect world = true) :
    Undisturbed context choose sizes effect world (handle context env effect world).1
      (handle context env effect world).2 := by
  simp only [undisturbedHere, Bool.and_eq_true] at hcheck
  exact ⟨faultless_of_check env effect world hcheck.1, hcheck.2⟩

/-- The server accepts what is sent for the path. -/
def Accepted (path : String) : (effect : Effect) → effect.Reply → Prop
  | .applyOp op, .error _ => op.path ≠ path
  | _, _ => True

/-- A cycle alone with the server, seen from one path: it stays in good order
and settles to `target`. -/
def quiet (context : Context) (choose : String → ConflictResolutionChoice) (sizes : Bool)
    (target : String → Versions) (path : String) : Setting Effect Effect.Reply World where
  performs := Undisturbed context choose sizes
  rely := Eq
  guarantee := fun _ effect reply after => SoundAt context path after ∧
    (after.view context path).goal context choose path = target path ∧
    (sizes = false → Accepted path effect reply)

/-- The same for all paths together. -/
def quietAll (context : Context) (choose : String → ConflictResolutionChoice) (sizes : Bool)
    (target : String → Versions) : Setting Effect Effect.Reply World where
  performs := Undisturbed context choose sizes
  rely := Eq
  guarantee := fun before effect reply after => ∀ path,
    (quiet context choose sizes target path).guarantee before effect reply after

section Here

variable {context : Context} {choose : String → ConflictResolutionChoice} {sizes : Bool}
  {target : String → Versions} {path : String}

variable (context path) in
/-- The path is in good order, and `known` is known of what it has. -/
def Here (known : View → Prop) (world : World) : Prop :=
  SoundAt context path world ∧ known (world.view context path)

/-- What is known settles to the target. -/
def Targets (context : Context) (choose : String → ConflictResolutionChoice)
    (target : String → Versions) (path : String) (known : View → Prop) : Prop :=
  ∀ view, known view → view.goal context choose path = target path

theorem stable_here (hideal : context.Ideal) {known : View → Prop}
    (htargets : Targets context choose target path known) :
    Stable (quiet context choose sizes target path) path (Here context path known) where
  rely := by
    rintro a b rfl hinv
    exact hinv
  elsewhere := by
    intro effect helsewhere before reply after hinv hperform
    obtain ⟨⟨⟨env, hclean, hhandle⟩, _⟩, _⟩ := hperform
    obtain ⟨hview, hsound⟩ := handle_elsewhere hideal hclean helsewhere before
    rw [hhandle] at hview hsound
    have hknown : known (after.view context path) := by
      rw [hview]
      exact hinv.2
    refine ⟨⟨hsound hinv.1, htargets _ hknown, fun _ => ?_⟩, hsound hinv.1, hknown⟩
    cases effect with
    | applyOp op =>
        cases reply with
        | ok outcome => trivial
        | error error => exact helsewhere.2
    | _ => trivial

end Here

end ObSink.Engine
