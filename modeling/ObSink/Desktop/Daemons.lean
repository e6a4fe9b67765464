import Mathlib.Data.Finset.Basic
import Mathlib.Data.List.Basic
import Mathlib.Logic.Relation
import ObSink.Lib.TreeMap

/-! # Daemons of the desktop app

The part of `desktop/src-tauri/src/main.rs` that starts and stops the daemons
of the vaults, relays their events and runs the commands of a vault, with the
loop of `core/src/daemon.rs` as far as it can be seen from there: when it
runs a cycle, what it reports and when it ends. The plans and messages the
events carry go to the pending plans and the activity log and are left out, and
so are the bounds of the channels.
-/

namespace ObSink.Desktop

open Std (ExtTreeMap)

inductive DaemonEvent where
  | started
  | syncStarted
  | syncFinished
  | conflictsPending
  | failed
  | stopped
  deriving DecidableEq, Repr

inductive Phase where
  /-- Spawned; the watcher is not running yet. -/
  | booting
  | idle
  | cycling
  | ended
  deriving DecidableEq, Repr

/-- A spawned daemon with its relay task: `told` once its handle was asked to
stop, `events` what it sent and the relay has not received. -/
structure Daemon where
  vault : String
  told : Bool := false
  phase : Phase := .booting
  events : List DaemonEvent := []
  deriving DecidableEq, Repr

inductive Kind where
  | syncVault
  | resolveConflict
  | moveVaultFolder
  | removeVault
  | deleteRemoteVault
  deriving DecidableEq, Repr

/-- How far a command has come. -/
inductive Stage where
  /-- About to look for the daemon of the vault. -/
  | look
  /-- Waiting for the daemon, with a clone of its handle. -/
  | waiting (daemon : Nat)
  /-- About to stop the daemon of the vault. -/
  | stop
  /-- About to acquire the in-flight guard. -/
  | guard
  /-- Doing its work under the guard. -/
  | holding
  /-- About to reconcile the daemons. -/
  | reconcile
  | done
  deriving DecidableEq, Repr

structure Command where
  kind : Kind
  vault : String
  stage : Stage
  deriving DecidableEq, Repr

/-- The state of the app. Daemons are numbered in the order they were spawned,
and a number stands for the handle of its daemon. -/
structure App where
  daemons : ExtTreeMap String Nat := ∅
  inFlight : Finset String := ∅
  spawned : List Daemon := []
  commands : List Command := []

/-! ## Handles -/

def Daemon.stop (daemon : Daemon) : Daemon := { daemon with told := true }

def Daemon.send (daemon : Daemon) (events : List DaemonEvent) : Daemon :=
  { daemon with events := daemon.events ++ events }

def App.updateDaemon (app : App) (number : Nat) (change : Daemon → Daemon) : App :=
  { app with spawned := app.spawned.modify number change }

/-- Take a vault's handle out of the map and ask its daemon to stop. -/
def App.stopDaemon (app : App) (vault : String) : App :=
  match app.daemons[vault]? with
  | none => app
  | some number =>
      App.updateDaemon { app with daemons := app.daemons.erase vault } number Daemon.stop

/-- A daemon for a wanted vault that has none; `keyed` is whether its key can
still be loaded. -/
def App.spawnDaemon (keyed : String → Bool) (app : App) (vault : String) : App :=
  if app.daemons.contains vault then app
  else if keyed vault = false then app
  else
    { app with
      daemons := app.daemons.insert vault app.spawned.length
      spawned := app.spawned ++ [{ vault }] }

/-- Stop the daemons of the vaults that cannot sync any more and start those
that are missing. -/
def App.reconcileDaemons (wanted : List String) (keyed : String → Bool) (app : App) : App :=
  let stale := app.daemons.keys.filter fun vault => vault ∉ wanted
  wanted.foldl (App.spawnDaemon keyed) (stale.foldl App.stopDaemon app)

/-- One event of a daemon, as the relay mirrors it into the state. -/
def App.deliver (app : App) (vault : String) : DaemonEvent → App
  | .started | .conflictsPending => app
  | .syncStarted => { app with inFlight := insert vault app.inFlight }
  | .syncFinished | .failed => { app with inFlight := app.inFlight.erase vault }
  | .stopped =>
      { app with
        inFlight := app.inFlight.erase vault
        daemons := app.daemons.erase vault }

/-! ## Commands -/

def Kind.firstStage : Kind → Stage
  | .syncVault | .resolveConflict => .look
  | .moveVaultFolder => .stop
  | .removeVault | .deleteRemoteVault => .guard

/-- What follows the guarded part of a command. -/
def Kind.lastStage : Kind → Stage
  | .syncVault | .resolveConflict => .done
  | .moveVaultFolder | .removeVault | .deleteRemoteVault => .reconcile

def App.setStage (app : App) (index : Nat) (stage : Stage) : App :=
  { app with commands := app.commands.modify index fun command => { command with stage } }

/-- What a step of a command depends on besides the state: whether it gives up
before it asks for the guard, and what it finds when it reconciles. -/
structure Choice where
  leaves : Bool := false
  wanted : List String := []
  keyed : String → Bool := fun _ => true

/-- The next step of a command. -/
def App.advance (app : App) (index : Nat) (choice : Choice) : Option App :=
  match app.commands[index]? with
  | none => none
  | some command =>
      match command.stage with
      | .look =>
          match app.daemons[command.vault]? with
          | some number => some (app.setStage index (.waiting number))
          | none => some (app.setStage index .guard)
      | .waiting _ => some (app.setStage index .done)
      | .stop => some ((app.stopDaemon command.vault).setStage index .guard)
      | .guard =>
          if choice.leaves ∨ command.vault ∈ app.inFlight then
            some (app.setStage index command.kind.lastStage)
          else
            some (App.setStage { app with inFlight := insert command.vault app.inFlight } index
              .holding)
      | .holding =>
          some (App.setStage { app with inFlight := app.inFlight.erase command.vault } index
            command.kind.lastStage)
      | .reconcile =>
          some ((app.reconcileDaemons choice.wanted choice.keyed).setStage index .done)
      | .done => none

/-! ## The daemon loop -/

/-- How a cycle of a daemon ended. -/
inductive CycleOutcome where
  | completed (fatal conflicts : Bool)
  | error
  deriving DecidableEq, Repr

def CycleOutcome.events : CycleOutcome → List DaemonEvent
  | .completed fatal conflicts =>
      (if fatal then [.failed] else []) ++ (if conflicts then [.conflictsPending] else []) ++
        [.syncFinished]
  | .error => [.failed]

/-- Why the loop of a daemon ends. -/
inductive Reason where
  | stopCommand
  | channelClosed
  | watcherClosed
  deriving DecidableEq, Repr

/-- The command channel closes when no handle is left, neither in the map nor
with a command. -/
def App.quits (app : App) (number : Nat) (daemon : Daemon) : Reason → Bool
  | .stopCommand => daemon.told
  | .channelClosed =>
      app.daemons[daemon.vault]? ≠ some number &&
        app.commands.all fun command => command.stage ≠ .waiting number
  | .watcherClosed => true

inductive Action where
  /-- At launch, and after anything else that changes what can sync. -/
  | reconcile (wanted : List String) (keyed : String → Bool)
  | call (kind : Kind) (vault : String)
  | advance (index : Nat) (choice : Choice)
  /-- The watcher comes up, or the daemon ends without a word. -/
  | boot (number : Nat) (watching : Bool)
  | begin (number : Nat)
  | finish (number : Nat) (outcome : CycleOutcome)
  /-- A remote poll that failed is reported like a failed cycle. -/
  | pollFails (number : Nat)
  | quit (number : Nat) (reason : Reason)
  | relay (number : Nat)

/-- A step of a daemon that is in `phase`. -/
def App.inPhase (app : App) (number : Nat) (phase : Phase) (change : Daemon → Daemon) :
    Option App :=
  match app.spawned[number]? with
  | none => none
  | some daemon =>
      if daemon.phase = phase then some (app.updateDaemon number change) else none

def App.step (app : App) : Action → Option App
  | .reconcile wanted keyed => some (app.reconcileDaemons wanted keyed)
  | .call kind vault =>
      some { app with commands := app.commands ++ [⟨kind, vault, kind.firstStage⟩] }
  | .advance index choice => app.advance index choice
  | .boot number true =>
      app.inPhase number .booting fun daemon =>
        Daemon.send { daemon with phase := .idle } [.started]
  | .boot number false =>
      app.inPhase number .booting fun daemon => { daemon with phase := .ended }
  | .begin number =>
      app.inPhase number .idle fun daemon =>
        Daemon.send { daemon with phase := .cycling } [.syncStarted]
  | .finish number outcome =>
      app.inPhase number .cycling fun daemon =>
        Daemon.send { daemon with phase := .idle } outcome.events
  | .pollFails number => app.inPhase number .idle fun daemon => daemon.send [.failed]
  | .quit number reason =>
      match app.spawned[number]? with
      | none => none
      | some daemon =>
          if app.quits number daemon reason then
            app.inPhase number .idle fun daemon =>
              Daemon.send { daemon with phase := .ended } [.stopped]
          else none
  | .relay number =>
      match app.spawned[number]? with
      | none => none
      | some daemon =>
          match daemon.events with
          | [] => none
          | event :: rest =>
              some ((app.updateDaemon number fun daemon => { daemon with events := rest }).deliver
                daemon.vault event)

/-- The steps of a run. -/
def App.run (app : App) : List Action → Option App
  | [] => some app
  | action :: rest => (app.step action).bind fun next => next.run rest

/-- One step of the app. -/
def Steps (before after : App) : Prop := ∃ action, before.step action = some after

/-- The states the app can be in. -/
def Reachable (app : App) : Prop := Relation.ReflTransGen Steps {} app

/-! ## What a step does to the daemons -/

/-- What a stop of a vault that is not wanted and a start of one that is keep,
a reconciliation keeps. -/
theorem reconcileDaemons_keeps {inv : App → Prop} {wanted : List String} {keyed : String → Bool}
    (hstop : ∀ app vault, vault ∉ wanted → inv app → inv (app.stopDaemon vault))
    (hspawn : ∀ app vault, inv app → inv (app.spawnDaemon keyed vault))
    {app : App} (hinv : inv app) : inv (app.reconcileDaemons wanted keyed) := by
  apply List.foldlRecOn
  · apply List.foldlRecOn
    · exact hinv
    · intro app hinv vault hstale
      exact hstop app vault (by simpa using (List.mem_filter.mp hstale).2) hinv
  · intro app hinv vault _
    exact hspawn app vault hinv

theorem map_modify_eq {α β : Type} {g : α → β} {f : α → α} (hsame : ∀ a, g (f a) = g a)
    (items : List α) (index : Nat) : (items.modify index f).map g = items.map g := by
  apply List.ext_getElem?
  intro i
  rw [List.getElem?_map, List.getElem?_map, List.getElem?_modify]
  cases items[i]? with
  | none => rfl
  | some a =>
      by_cases heq : index = i
      · simp [heq, hsame]
      · simp [heq]

theorem mem_modify {α : Type} {f : α → α} {items : List α} {index : Nat} {a : α}
    (hmem : a ∈ items.modify index f) :
    a ∈ items ∨ ∃ old, items[index]? = some old ∧ a = f old := by
  obtain ⟨i, hget⟩ := List.getElem?_of_mem hmem
  rw [List.getElem?_modify] at hget
  cases hold : items[i]? with
  | none => simp [hold] at hget
  | some old =>
      by_cases heq : index = i
      · refine Or.inr ⟨old, by rw [heq, hold], ?_⟩
        simpa [hold, heq, eq_comm] using hget
      · refine Or.inl ?_
        have hsame : old = a := by simpa [hold, heq] using hget
        exact hsame ▸ List.mem_of_getElem? hold

/-- What the steps of a daemon's own loop do to it. -/
inductive Daemon.Moves : Daemon → Daemon → Prop where
  | boot (daemon : Daemon) (hphase : daemon.phase = .booting) :
      Moves daemon (Daemon.send { daemon with phase := .idle } [.started])
  | bootFails (daemon : Daemon) (hphase : daemon.phase = .booting) :
      Moves daemon { daemon with phase := .ended }
  | begin (daemon : Daemon) (hphase : daemon.phase = .idle) :
      Moves daemon (Daemon.send { daemon with phase := .cycling } [.syncStarted])
  | finish (daemon : Daemon) (outcome : CycleOutcome) (hphase : daemon.phase = .cycling) :
      Moves daemon (Daemon.send { daemon with phase := .idle } outcome.events)
  | pollFails (daemon : Daemon) (hphase : daemon.phase = .idle) :
      Moves daemon (daemon.send [.failed])
  | quit (daemon : Daemon) (hphase : daemon.phase = .idle) :
      Moves daemon (Daemon.send { daemon with phase := .ended } [.stopped])

/-- The daemon a step of a loop belongs to. -/
def Action.loop : Action → Option Nat
  | .boot number _ | .begin number | .finish number _ | .pollFails number | .quit number _ =>
      some number
  | _ => none

theorem inPhase_eq_some {app next : App} {number : Nat} {phase : Phase}
    {change : Daemon → Daemon} (hstep : app.inPhase number phase change = some next) :
    ∃ daemon, app.spawned[number]? = some daemon ∧ daemon.phase = phase ∧
      next = app.updateDaemon number change := by
  unfold App.inPhase at hstep
  split at hstep
  next => cases hstep
  next daemon hdaemon =>
    split at hstep
    next hphase => exact ⟨daemon, hdaemon, hphase, (Option.some.inj hstep).symm⟩
    next => cases hstep

/-- A step of a loop changes its own daemon and nothing else. -/
theorem loop_step {app next : App} {action : Action} {number : Nat}
    (hloop : action.loop = some number) (hstep : app.step action = some next) :
    ∃ daemon change, app.spawned[number]? = some daemon ∧ daemon.Moves (change daemon) ∧
      next = app.updateDaemon number change ∧
      ∀ other : Daemon, (change other).vault = other.vault ∧ (change other).told = other.told := by
  have hsend : ∀ (daemon : Daemon) (phase : Phase) (events : List DaemonEvent),
      (Daemon.send { daemon with phase } events).vault = daemon.vault ∧
        (Daemon.send { daemon with phase } events).told = daemon.told := fun _ _ _ => ⟨rfl, rfl⟩
  cases action with
  | boot n watching =>
      obtain rfl := Option.some.inj hloop
      cases watching with
      | true =>
          obtain ⟨daemon, hdaemon, hphase, rfl⟩ := inPhase_eq_some hstep
          exact ⟨daemon, _, hdaemon, .boot daemon hphase, rfl, fun _ => hsend _ _ _⟩
      | false =>
          obtain ⟨daemon, hdaemon, hphase, rfl⟩ := inPhase_eq_some hstep
          exact ⟨daemon, _, hdaemon, .bootFails daemon hphase, rfl, fun _ => ⟨rfl, rfl⟩⟩
  | begin n =>
      obtain rfl := Option.some.inj hloop
      obtain ⟨daemon, hdaemon, hphase, rfl⟩ := inPhase_eq_some hstep
      exact ⟨daemon, _, hdaemon, .begin daemon hphase, rfl, fun _ => hsend _ _ _⟩
  | finish n outcome =>
      obtain rfl := Option.some.inj hloop
      obtain ⟨daemon, hdaemon, hphase, rfl⟩ := inPhase_eq_some hstep
      exact ⟨daemon, _, hdaemon, .finish daemon outcome hphase, rfl, fun _ => hsend _ _ _⟩
  | pollFails n =>
      obtain rfl := Option.some.inj hloop
      obtain ⟨daemon, hdaemon, hphase, rfl⟩ := inPhase_eq_some hstep
      exact ⟨daemon, _, hdaemon, .pollFails daemon hphase, rfl, fun _ => ⟨rfl, rfl⟩⟩
  | quit n reason =>
      obtain rfl := Option.some.inj hloop
      simp only [App.step] at hstep
      split at hstep
      next => cases hstep
      next =>
        split at hstep
        next =>
          obtain ⟨daemon, hdaemon, hphase, rfl⟩ := inPhase_eq_some hstep
          exact ⟨daemon, _, hdaemon, .quit daemon hphase, rfl, fun _ => hsend _ _ _⟩
        next => cases hstep
  | reconcile wanted keyed => cases hloop
  | call kind vault => cases hloop
  | advance index choice => cases hloop
  | relay n => cases hloop

theorem relay_step {app next : App} {number : Nat} (hstep : app.step (.relay number) = some next) :
    ∃ daemon event rest, app.spawned[number]? = some daemon ∧ daemon.events = event :: rest ∧
      next = (app.updateDaemon number fun daemon => { daemon with events := rest }).deliver
        daemon.vault event := by
  simp only [App.step] at hstep
  split at hstep
  next => cases hstep
  next daemon hdaemon =>
    split at hstep
    next => cases hstep
    next event rest hevents =>
      exact ⟨daemon, event, rest, hdaemon, hevents, (Option.some.inj hstep).symm⟩

/-- What the next step of a command does to the app. -/
inductive Advances (app : App) (index : Nat) (command : Command) (choice : Choice) : App → Prop
    where
  | waits (stage : Stage) (hold : command.stage ≠ .holding) (hnew : stage ≠ .holding) :
      Advances app index command choice (app.setStage index stage)
  | stops (hstage : command.stage = .stop) :
      Advances app index command choice ((app.stopDaemon command.vault).setStage index .guard)
  | acquires (hstage : command.stage = .guard) (hfree : command.vault ∉ app.inFlight)
      (hstays : choice.leaves = false) :
      Advances app index command choice
        (App.setStage { app with inFlight := insert command.vault app.inFlight } index .holding)
  | releases (hstage : command.stage = .holding) :
      Advances app index command choice
        (App.setStage { app with inFlight := app.inFlight.erase command.vault } index
          command.kind.lastStage)
  | reconciles (hstage : command.stage = .reconcile) :
      Advances app index command choice
        ((app.reconcileDaemons choice.wanted choice.keyed).setStage index .done)

theorem Kind.lastStage_ne_holding (kind : Kind) : kind.lastStage ≠ .holding := by
  cases kind <;> simp [Kind.lastStage]

theorem advance_step {app next : App} {index : Nat} {choice : Choice}
    (hstep : app.step (.advance index choice) = some next) :
    ∃ command, app.commands[index]? = some command ∧ Advances app index command choice next := by
  simp only [App.step, App.advance] at hstep
  split at hstep
  next => cases hstep
  next command hcommand =>
    refine ⟨command, hcommand, ?_⟩
    split at hstep
    next hstage =>
      split at hstep
      next number _ =>
        obtain rfl := Option.some.inj hstep
        exact .waits _ (by simp [hstage]) (by simp)
      next =>
        obtain rfl := Option.some.inj hstep
        exact .waits _ (by simp [hstage]) (by simp)
    next hstage =>
      obtain rfl := Option.some.inj hstep
      exact .waits _ (by simp [hstage]) (by simp)
    next hstage =>
      obtain rfl := Option.some.inj hstep
      exact .stops hstage
    next hstage =>
      split at hstep
      next =>
        obtain rfl := Option.some.inj hstep
        exact .waits _ (by simp [hstage]) command.kind.lastStage_ne_holding
      next hfree =>
        obtain rfl := Option.some.inj hstep
        exact .acquires hstage (not_or.mp hfree).2 (by simpa using (not_or.mp hfree).1)
    next hstage =>
      obtain rfl := Option.some.inj hstep
      exact .releases hstage
    next hstage =>
      obtain rfl := Option.some.inj hstep
      exact .reconciles hstage
    next => cases hstep

/-! ## Facts about single daemons -/

/-- Something every spawned daemon satisfies. -/
def AllDaemons (fact : Daemon → Prop) (app : App) : Prop := ∀ daemon ∈ app.spawned, fact daemon

section

variable {fact : Daemon → Prop} {app : App}

theorem AllDaemons.updateDaemon (hall : AllDaemons fact app) {number : Nat}
    {change : Daemon → Daemon}
    (hchange : ∀ daemon, app.spawned[number]? = some daemon → fact daemon → fact (change daemon)) :
    AllDaemons fact (app.updateDaemon number change) := by
  intro daemon hmem
  rcases mem_modify hmem with hold | ⟨old, hget, rfl⟩
  · exact hall daemon hold
  · exact hchange old hget (hall old (List.mem_of_getElem? hget))

theorem AllDaemons.stopDaemon (hstop : ∀ daemon, fact daemon → fact daemon.stop)
    (hall : AllDaemons fact app) (vault : String) : AllDaemons fact (app.stopDaemon vault) := by
  unfold App.stopDaemon
  split
  next => exact hall
  next number _ =>
    exact @AllDaemons.updateDaemon fact { app with daemons := app.daemons.erase vault } hall number
      _ fun daemon _ => hstop daemon

theorem AllDaemons.spawnDaemon (hfresh : ∀ vault, fact { vault }) (keyed : String → Bool)
    (hall : AllDaemons fact app) (vault : String) :
    AllDaemons fact (app.spawnDaemon keyed vault) := by
  unfold App.spawnDaemon
  split
  next => exact hall
  next =>
    split
    next => exact hall
    next =>
      intro daemon hmem
      rcases List.mem_append.mp hmem with hold | hnew
      · exact hall daemon hold
      · obtain rfl := List.mem_singleton.mp hnew
        exact hfresh vault

theorem AllDaemons.reconcileDaemons (hfresh : ∀ vault, fact { vault })
    (hstop : ∀ daemon, fact daemon → fact daemon.stop) (wanted : List String)
    (keyed : String → Bool) (hall : AllDaemons fact app) :
    AllDaemons fact (app.reconcileDaemons wanted keyed) := by
  apply reconcileDaemons_keeps
  · intro app vault _ hall
    exact hall.stopDaemon hstop vault
  · intro app vault hall
    exact hall.spawnDaemon hfresh keyed vault
  · exact hall

/-- A fact that the loop, the relay and a stop keep holds of every daemon. -/
theorem AllDaemons.step (hfresh : ∀ vault, fact { vault })
    (hstop : ∀ daemon, fact daemon → fact daemon.stop)
    (hmoves : ∀ daemon next, fact daemon → daemon.Moves next → fact next)
    (hrelay : ∀ daemon event rest, fact daemon → daemon.events = event :: rest →
      fact { daemon with events := rest })
    (hall : AllDaemons fact app) {next : App} (hstep : Steps app next) :
    AllDaemons fact next := by
  obtain ⟨action, hstep⟩ := hstep
  cases hloop : action.loop with
  | some number =>
      obtain ⟨daemon, change, hdaemon, hmove, rfl, _⟩ := loop_step hloop hstep
      apply hall.updateDaemon
      intro found hfound hfact
      obtain rfl : daemon = found := by simpa [hdaemon] using hfound
      exact hmoves daemon _ hfact hmove
  | none =>
      cases action with
      | reconcile wanted keyed =>
          obtain rfl := Option.some.inj hstep
          exact hall.reconcileDaemons hfresh hstop wanted keyed
      | call kind vault =>
          obtain rfl := Option.some.inj hstep
          exact hall
      | advance index choice =>
          obtain ⟨command, _, hadvance⟩ := advance_step hstep
          cases hadvance with
          | waits stage => exact hall
          | stops => exact hall.stopDaemon hstop command.vault
          | acquires => exact hall
          | releases => exact hall
          | reconciles => exact hall.reconcileDaemons hfresh hstop choice.wanted choice.keyed
      | relay number =>
          obtain ⟨daemon, event, rest, hdaemon, hevents, rfl⟩ := relay_step hstep
          have hpopped : AllDaemons fact
              (app.updateDaemon number fun daemon => { daemon with events := rest }) := by
            apply hall.updateDaemon
            intro found hfound hfact
            obtain rfl : daemon = found := by simpa [hdaemon] using hfound
            exact hrelay daemon event rest hfact hevents
          cases event with
          | started => exact hpopped
          | conflictsPending => exact hpopped
          | syncStarted => exact hpopped
          | syncFinished => exact hpopped
          | failed => exact hpopped
          | stopped => exact hpopped
      | boot number watching => cases watching <;> cases hloop
      | begin number => cases hloop
      | finish number outcome => cases hloop
      | pollFails number => cases hloop
      | quit number reason => cases hloop

theorem AllDaemons.of_reachable (hfresh : ∀ vault, fact { vault })
    (hstop : ∀ daemon, fact daemon → fact daemon.stop)
    (hmoves : ∀ daemon next, fact daemon → daemon.Moves next → fact next)
    (hrelay : ∀ daemon event rest, fact daemon → daemon.events = event :: rest →
      fact { daemon with events := rest })
    (hreach : Reachable app) : AllDaemons fact app := by
  induction hreach with
  | refl =>
      intro daemon hmem
      cases hmem
  | tail _ hstep ih => exact ih.step hfresh hstop hmoves hrelay hstep

end

/-! ## The map and the daemons -/

/-- The daemon with this number is the last one spawned for the vault, and
nobody has told it to stop. -/
structure Tracks (app : App) (vault : String) (number : Nat) : Prop where
  current : ∃ daemon, app.spawned[number]? = some daemon ∧ daemon.vault = vault ∧
    daemon.told = false
  latest : ∀ later daemon, number < later → app.spawned[later]? = some daemon →
    daemon.vault ≠ vault

/-- Every vault in the map has the handle of its current daemon. -/
def MapTracks (app : App) : Prop :=
  ∀ (vault : String) (number : Nat), app.daemons[vault]? = some number → Tracks app vault number

def Daemon.handle (daemon : Daemon) : String × Bool := (daemon.vault, daemon.told)

theorem Tracks.congr {app next : App} {vault : String} {number : Nat}
    (htracks : Tracks app vault number)
    (hhandles : next.spawned.map Daemon.handle = app.spawned.map Daemon.handle) :
    Tracks next vault number := by
  have hget : ∀ index : Nat, (next.spawned[index]?).map Daemon.handle =
      (app.spawned[index]?).map Daemon.handle := by
    intro index
    rw [← List.getElem?_map, ← List.getElem?_map, hhandles]
  constructor
  · obtain ⟨daemon, hdaemon, hvault, htold⟩ := htracks.current
    have hnew := hget number
    rw [hdaemon, Option.map_some, Option.map_eq_some_iff] at hnew
    obtain ⟨found, hfound, hhandle⟩ := hnew
    obtain ⟨hsameVault, hsameTold⟩ := Prod.mk.inj hhandle
    exact ⟨found, hfound, hsameVault.trans hvault, hsameTold.trans htold⟩
  · intro later daemon hlater hdaemon
    have hold := (hget later).symm
    rw [hdaemon, Option.map_some, Option.map_eq_some_iff] at hold
    obtain ⟨found, hfound, hhandle⟩ := hold
    rw [← (Prod.mk.inj hhandle).1]
    exact htracks.latest later found hlater hfound

/-- A step that leaves the handles alone and adds nothing to the map. -/
theorem MapTracks.congr {app next : App} (htracks : MapTracks app)
    (hdaemons : ∀ (vault : String) (number : Nat), next.daemons[vault]? = some number →
      app.daemons[vault]? = some number)
    (hhandles : next.spawned.map Daemon.handle = app.spawned.map Daemon.handle) :
    MapTracks next := by
  intro vault number hmap
  exact (htracks vault number (hdaemons vault number hmap)).congr hhandles

theorem getElem?_erase_eq_some {map : ExtTreeMap String Nat} {vault other : String} {number : Nat}
    (hget : (map.erase vault)[other]? = some number) :
    other ≠ vault ∧ map[other]? = some number := by
  by_cases heq : vault = other
  · subst heq
    simp at hget
  · rw [ExtTreeMap.getElem?_erase_of_ne map heq] at hget
    exact ⟨Ne.symm heq, hget⟩

theorem MapTracks.stopDaemon {app : App} (htracks : MapTracks app) (vault : String) :
    MapTracks (app.stopDaemon vault) := by
  unfold App.stopDaemon
  split
  next => exact htracks
  next number hnumber =>
    intro other kept hkept
    obtain ⟨hother, hmap⟩ := getElem?_erase_eq_some hkept
    obtain ⟨stopped, hstopped, hvault, _⟩ := (htracks vault number hnumber).current
    obtain ⟨⟨daemon, hdaemon, hdaemonVault, htold⟩, hlatest⟩ := htracks other kept hmap
    -- the daemon that is stopped belongs to another vault
    have hne : number ≠ kept := by
      intro heq
      rw [heq, hdaemon] at hstopped
      obtain rfl := Option.some.inj hstopped
      exact hother (hdaemonVault.symm.trans hvault)
    constructor
    · refine ⟨daemon, ?_, hdaemonVault, htold⟩
      simp [App.updateDaemon, hne, hdaemon]
    · intro later found hlater hfound
      simp only [App.updateDaemon, List.getElem?_modify] at hfound
      cases hold : app.spawned[later]? with
      | none => simp [hold] at hfound
      | some old =>
          have hsame : found.vault = old.vault := by
            by_cases heq : number = later
            · have hfound : old.stop = found := by simpa [hold, heq] using hfound
              rw [← hfound]
              rfl
            · have hfound : old = found := by simpa [hold, heq] using hfound
              rw [hfound]
          rw [hsame]
          exact hlatest later old hlater hold

theorem MapTracks.spawnDaemon {app : App} (keyed : String → Bool) (htracks : MapTracks app)
    (vault : String) : MapTracks (app.spawnDaemon keyed vault) := by
  unfold App.spawnDaemon
  split
  next => exact htracks
  next =>
    split
    next => exact htracks
    next =>
      intro other number hmap
      simp only at hmap
      by_cases heq : vault = other
      · subst heq
        obtain rfl : app.spawned.length = number := by simpa using hmap
        constructor
        · exact ⟨{ vault }, by simp, rfl, rfl⟩
        · intro later daemon hlater hdaemon
          rw [List.getElem?_eq_none (by simpa using hlater.nat_succ_le)] at hdaemon
          cases hdaemon
      · rw [ExtTreeMap.getElem?_insert_of_ne _ _ heq] at hmap
        obtain ⟨⟨daemon, hdaemon, hvault, htold⟩, hlatest⟩ := htracks other number hmap
        have hlength : number < app.spawned.length := (List.getElem?_eq_some_iff.mp hdaemon).1
        constructor
        · exact ⟨daemon, by simpa [List.getElem?_append_left hlength] using hdaemon, hvault, htold⟩
        · intro later found hlater hfound
          rcases Nat.lt_or_ge later app.spawned.length with hold | hnew
          · simp only [List.getElem?_append_left hold] at hfound
            exact hlatest later found hlater hfound
          · simp only [List.getElem?_append_right hnew] at hfound
            have hnewest := List.mem_of_getElem? hfound
            rw [List.mem_singleton.mp hnewest]
            exact heq

theorem MapTracks.reconcileDaemons {app : App} (htracks : MapTracks app) (wanted : List String)
    (keyed : String → Bool) : MapTracks (app.reconcileDaemons wanted keyed) := by
  apply reconcileDaemons_keeps
  · intro app vault _ htracks
    exact htracks.stopDaemon vault
  · intro app vault htracks
    exact htracks.spawnDaemon keyed vault
  · exact htracks

theorem MapTracks.step {app next : App} (htracks : MapTracks app) (hstep : Steps app next) :
    MapTracks next := by
  obtain ⟨action, hstep⟩ := hstep
  cases hloop : action.loop with
  | some number =>
      obtain ⟨daemon, change, _, _, rfl, hsame⟩ := loop_step hloop hstep
      apply htracks.congr
      · exact fun _ _ hmap => hmap
      · apply map_modify_eq
        intro other
        exact Prod.ext (hsame other).1 (hsame other).2
  | none =>
      cases action with
      | reconcile wanted keyed =>
          obtain rfl := Option.some.inj hstep
          exact htracks.reconcileDaemons wanted keyed
      | call kind vault =>
          obtain rfl := Option.some.inj hstep
          exact htracks.congr (fun _ _ hmap => hmap) rfl
      | advance index choice =>
          obtain ⟨command, _, hadvance⟩ := advance_step hstep
          cases hadvance with
          | waits stage => exact htracks.congr (fun _ _ hmap => hmap) rfl
          | stops => exact (htracks.stopDaemon command.vault).congr (fun _ _ hmap => hmap) rfl
          | acquires => exact htracks.congr (fun _ _ hmap => hmap) rfl
          | releases => exact htracks.congr (fun _ _ hmap => hmap) rfl
          | reconciles =>
              exact (htracks.reconcileDaemons choice.wanted choice.keyed).congr
                (fun _ _ hmap => hmap) rfl
      | relay number =>
          obtain ⟨daemon, event, rest, _, _, rfl⟩ := relay_step hstep
          have hpopped : MapTracks
              (app.updateDaemon number fun daemon => { daemon with events := rest }) := by
            apply htracks.congr
            · exact fun _ _ hmap => hmap
            · apply map_modify_eq
              intro other
              rfl
          cases event with
          | started => exact hpopped
          | conflictsPending => exact hpopped
          | syncStarted => exact hpopped.congr (fun _ _ hmap => hmap) rfl
          | syncFinished => exact hpopped.congr (fun _ _ hmap => hmap) rfl
          | failed => exact hpopped.congr (fun _ _ hmap => hmap) rfl
          | stopped =>
              apply hpopped.congr
              · intro vault number hmap
                exact (getElem?_erase_eq_some hmap).2
              · rfl
      | boot number watching => cases watching <;> cases hloop
      | begin number => cases hloop
      | finish number outcome => cases hloop
      | pollFails number => cases hloop
      | quit number reason => cases hloop

theorem mapTracks_of_reachable {app : App} (hreach : Reachable app) : MapTracks app := by
  induction hreach with
  | refl =>
      intro vault number hmap
      simp at hmap
  | tail _ hstep ih => exact ih.step hstep

/-! ## How long a vault stays in the map -/

/-- A call of `reconcile_daemons` that finds the vault wanted, with a key. -/
def FindsWanted (app : App) (vault : String) : Action → Prop
  | .reconcile wanted keyed => vault ∈ wanted ∧ (app.daemons.contains vault ∨ keyed vault)
  | .advance index choice =>
      ∃ command, app.commands[index]? = some command ∧ command.stage = .reconcile ∧
        vault ∈ choice.wanted ∧ (app.daemons.contains vault ∨ choice.keyed vault)
  | _ => False

/-- A call that finds the vault unwanted, or stops its daemon. -/
def Dismisses (app : App) (vault : String) : Action → Prop
  | .reconcile wanted _ => vault ∉ wanted
  | .advance index choice =>
      ∃ command, app.commands[index]? = some command ∧
        (command.stage = .stop ∧ command.vault = vault ∨
          command.stage = .reconcile ∧ vault ∉ choice.wanted)
  | _ => False

/-- A `Stopped` event is relayed while the map holds no other daemon of that
vault. -/
def Timely (app : App) : Action → Prop
  | .relay number =>
      ∀ daemon rest, app.spawned[number]? = some daemon → daemon.events = .stopped :: rest →
        ∀ other, app.daemons[daemon.vault]? = some other → other = number
  | _ => True

def App.Ended (app : App) (number : Nat) : Prop :=
  ∃ daemon, app.spawned[number]? = some daemon ∧ daemon.phase = .ended

/-- The vault has its daemon, or had it until the daemon ended. -/
def Kept (vault : String) (number : Nat) (app : App) : Prop :=
  app.daemons[vault]? = some number ∨ app.Ended number

/-- A `Stopped` event is the last thing a daemon does. -/
def Daemon.StopsLast (daemon : Daemon) : Prop := .stopped ∈ daemon.events → daemon.phase = .ended

theorem Daemon.StopsLast.moves {daemon next : Daemon} (hlast : daemon.StopsLast)
    (hmoves : daemon.Moves next) : next.StopsLast := by
  intro hmem
  have hnot : daemon.phase ≠ .ended → .stopped ∉ daemon.events := fun hphase hold =>
    hphase (hlast hold)
  cases hmoves with
  | boot hphase => exact absurd hmem (by simp [Daemon.send, hnot (by simp [hphase])])
  | bootFails hphase => rfl
  | begin hphase => exact absurd hmem (by simp [Daemon.send, hnot (by simp [hphase])])
  | finish outcome hphase =>
      refine absurd hmem ?_
      cases outcome with
      | completed fatal conflicts =>
          cases fatal <;> cases conflicts <;>
            simp [Daemon.send, CycleOutcome.events, hnot (by simp [hphase])]
      | error => simp [Daemon.send, CycleOutcome.events, hnot (by simp [hphase])]
  | pollFails hphase => exact absurd hmem (by simp [Daemon.send, hnot (by simp [hphase])])
  | quit hphase => rfl

theorem stopsLast_of_reachable {app : App} (hreach : Reachable app) :
    AllDaemons Daemon.StopsLast app := by
  refine AllDaemons.of_reachable ?_ ?_ ?_ ?_ hreach
  · intro vault hmem
    cases hmem
  · exact fun daemon hlast => hlast
  · exact fun daemon next => Daemon.StopsLast.moves
  · intro daemon event rest hlast hevents hmem
    exact hlast (by rw [hevents]; exact List.mem_cons_of_mem _ hmem)

theorem App.Ended.updateDaemon {app : App} {number other : Nat} {change : Daemon → Daemon}
    (hended : app.Ended number)
    (hchange : ∀ daemon, app.spawned[other]? = some daemon → daemon.phase = .ended →
      (change daemon).phase = .ended) : (app.updateDaemon other change).Ended number := by
  obtain ⟨daemon, hdaemon, hphase⟩ := hended
  by_cases heq : other = number
  · subst heq
    exact ⟨change daemon, by simp [App.updateDaemon, hdaemon], hchange daemon hdaemon hphase⟩
  · exact ⟨daemon, by simp [App.updateDaemon, heq, hdaemon], hphase⟩

theorem App.Ended.stopDaemon {app : App} {number : Nat} (hended : app.Ended number)
    (vault : String) : (app.stopDaemon vault).Ended number := by
  unfold App.stopDaemon
  split
  next => exact hended
  next other _ =>
    exact @App.Ended.updateDaemon { app with daemons := app.daemons.erase vault } number other _
      hended fun _ _ hphase => hphase

theorem App.Ended.spawnDaemon {app : App} {number : Nat} (hended : app.Ended number)
    (keyed : String → Bool) (vault : String) : (app.spawnDaemon keyed vault).Ended number := by
  obtain ⟨daemon, hdaemon, hphase⟩ := hended
  unfold App.spawnDaemon
  split
  next => exact ⟨daemon, hdaemon, hphase⟩
  next =>
    split
    next => exact ⟨daemon, hdaemon, hphase⟩
    next =>
      have hlength : number < app.spawned.length := (List.getElem?_eq_some_iff.mp hdaemon).1
      exact ⟨daemon, by simpa [List.getElem?_append_left hlength] using hdaemon, hphase⟩

/-- A daemon that has ended stays so. -/
theorem App.Ended.step {app next : App} {number : Nat} (hended : app.Ended number)
    (hstep : Steps app next) : next.Ended number := by
  obtain ⟨action, hstep⟩ := hstep
  have hreconcile : ∀ wanted keyed, (app.reconcileDaemons wanted keyed).Ended number := by
    intro wanted keyed
    refine @reconcileDaemons_keeps (fun app => app.Ended number) wanted keyed ?_ ?_ app hended
    · exact fun app vault _ hended => hended.stopDaemon vault
    · exact fun app vault hended => hended.spawnDaemon keyed vault
  cases hloop : action.loop with
  | some other =>
      obtain ⟨daemon, change, hdaemon, hmoves, rfl, _⟩ := loop_step hloop hstep
      apply hended.updateDaemon
      intro found hfound hphase
      obtain rfl : daemon = found := by simpa [hdaemon] using hfound
      -- no step of the loop starts from a daemon that has ended
      generalize change daemon = moved at hmoves ⊢
      cases hmoves <;> simp_all
  | none =>
      cases action with
      | reconcile wanted keyed =>
          obtain rfl := Option.some.inj hstep
          exact hreconcile wanted keyed
      | call kind vault =>
          obtain rfl := Option.some.inj hstep
          exact hended
      | advance index choice =>
          obtain ⟨command, _, hadvance⟩ := advance_step hstep
          cases hadvance with
          | waits stage => exact hended
          | stops => exact hended.stopDaemon command.vault
          | acquires => exact hended
          | releases => exact hended
          | reconciles => exact hreconcile choice.wanted choice.keyed
      | relay other =>
          obtain ⟨daemon, event, rest, _, _, rfl⟩ := relay_step hstep
          have hpopped := @App.Ended.updateDaemon app number other
            (fun daemon => { daemon with events := rest }) hended fun _ _ hphase => hphase
          cases event with
          | started => exact hpopped
          | conflictsPending => exact hpopped
          | syncStarted => exact hpopped
          | syncFinished => exact hpopped
          | failed => exact hpopped
          | stopped => exact hpopped
      | boot number watching => cases watching <;> cases hloop
      | begin number => cases hloop
      | finish number outcome => cases hloop
      | pollFails number => cases hloop
      | quit number reason => cases hloop

theorem stopDaemon_getElem?_of_ne (app : App) {vault other : String} (hne : vault ≠ other) :
    (app.stopDaemon vault).daemons[other]? = app.daemons[other]? := by
  unfold App.stopDaemon
  split
  next => rfl
  next => exact ExtTreeMap.getElem?_erase_of_ne _ hne

theorem spawnDaemon_keeps {app : App} (keyed : String → Bool) {vault : String} {number : Nat}
    (hmap : app.daemons[vault]? = some number) (other : String) :
    (app.spawnDaemon keyed other).daemons[vault]? = some number := by
  unfold App.spawnDaemon
  split
  next => exact hmap
  next hmissing =>
    split
    next => exact hmap
    next =>
      have hne : other ≠ vault := by
        rintro rfl
        rw [ExtTreeMap.contains_eq_isSome_getElem?, hmap] at hmissing
        exact hmissing rfl
      rw [ExtTreeMap.getElem?_insert_of_ne _ _ hne]
      exact hmap

/-- A reconciliation that finds the vault wanted keeps its daemon. -/
theorem reconcileDaemons_getElem? {app : App} {wanted : List String} {keyed : String → Bool}
    {vault : String} {number : Nat} (hwanted : vault ∈ wanted)
    (hmap : app.daemons[vault]? = some number) :
    (app.reconcileDaemons wanted keyed).daemons[vault]? = some number := by
  refine @reconcileDaemons_keeps (fun app => app.daemons[vault]? = some number) wanted keyed
    ?_ ?_ app hmap
  · intro app other hstale hmap
    rw [stopDaemon_getElem?_of_ne app (fun heq : other = vault => hstale (heq ▸ hwanted))]
    exact hmap
  · intro app other hmap
    exact spawnDaemon_keeps keyed hmap other

/-- After a reconciliation that finds the vault wanted it has a daemon. -/
theorem reconcileDaemons_isSome {app : App} {wanted : List String} {keyed : String → Bool}
    {vault : String} (hwanted : vault ∈ wanted)
    (hkey : app.daemons.contains vault ∨ keyed vault) :
    ∃ number, (app.reconcileDaemons wanted keyed).daemons[vault]? = some number := by
  by_cases hpresent : app.daemons.contains vault
  · rw [ExtTreeMap.contains_eq_isSome_getElem?] at hpresent
    obtain ⟨number, hmap⟩ := Option.isSome_iff_exists.mp hpresent
    exact ⟨number, reconcileDaemons_getElem? hwanted hmap⟩
  · have hkeyed : keyed vault = true := hkey.resolve_left hpresent
    -- the start of the vault itself puts it in the map, and later starts keep it
    obtain ⟨before, after, rfl⟩ := List.append_of_mem hwanted
    have hspawned : ∀ middle : App,
        ∃ number, (middle.spawnDaemon keyed vault).daemons[vault]? = some number := by
      intro middle
      unfold App.spawnDaemon
      split
      next hmember =>
        rw [ExtTreeMap.contains_eq_isSome_getElem?] at hmember
        exact Option.isSome_iff_exists.mp hmember
      next => exact ⟨middle.spawned.length, by simp [hkeyed]⟩
    unfold App.reconcileDaemons
    simp only [List.foldl_append, List.foldl_cons]
    obtain ⟨number, hnumber⟩ := hspawned (List.foldl (App.spawnDaemon keyed)
      (List.foldl App.stopDaemon app
        (app.daemons.keys.filter fun other => other ∉ before ++ vault :: after)) before)
    refine ⟨number, ?_⟩
    refine List.foldlRecOn (motive := fun app : App => app.daemons[vault]? = some number) _ _
      hnumber ?_
    intro app hmap other _
    exact spawnDaemon_keeps keyed hmap other

/-- One step that is timely and does not dismiss the vault. -/
theorem Kept.step {app next : App} {vault : String} {number : Nat} {action : Action}
    (hkept : Kept vault number app) (hlast : AllDaemons Daemon.StopsLast app)
    (hstep : app.step action = some next) (htimely : Timely app action)
    (hstays : ¬ Dismisses app vault action) : Kept vault number next := by
  rcases hkept with hmap | hended
  · cases hloop : action.loop with
    | some other =>
        obtain ⟨daemon, change, _, _, rfl, _⟩ := loop_step hloop hstep
        exact Or.inl hmap
    | none =>
        cases action with
        | reconcile wanted keyed =>
            obtain rfl := Option.some.inj hstep
            exact Or.inl (reconcileDaemons_getElem? (not_not.mp hstays) hmap)
        | call kind vault =>
            obtain rfl := Option.some.inj hstep
            exact Or.inl hmap
        | advance index choice =>
            obtain ⟨command, hcommand, hadvance⟩ := advance_step hstep
            cases hadvance with
            | waits stage => exact Or.inl hmap
            | stops hstage =>
                have hne : command.vault ≠ vault := fun heq =>
                  hstays ⟨command, hcommand, Or.inl ⟨hstage, heq⟩⟩
                exact Or.inl ((stopDaemon_getElem?_of_ne app hne).trans hmap)
            | acquires => exact Or.inl hmap
            | releases => exact Or.inl hmap
            | reconciles hstage =>
                have hwanted : vault ∈ choice.wanted := by
                  by_contra hunwanted
                  exact hstays ⟨command, hcommand, Or.inr ⟨hstage, hunwanted⟩⟩
                exact Or.inl (reconcileDaemons_getElem? hwanted hmap)
        | relay other =>
            obtain ⟨daemon, event, rest, hdaemon, hevents, rfl⟩ := relay_step hstep
            cases event with
            | started => exact Or.inl hmap
            | conflictsPending => exact Or.inl hmap
            | syncStarted => exact Or.inl hmap
            | syncFinished => exact Or.inl hmap
            | failed => exact Or.inl hmap
            | stopped =>
                by_cases heq : daemon.vault = vault
                · subst heq
                  -- the event is the daemon's own, so the daemon has ended
                  obtain rfl := htimely daemon rest hdaemon hevents number hmap
                  have hphase := hlast daemon (List.mem_of_getElem? hdaemon) (by simp [hevents])
                  refine Or.inr ⟨{ daemon with events := rest }, ?_, hphase⟩
                  simp [App.deliver, App.updateDaemon, hdaemon]
                · exact Or.inl ((ExtTreeMap.getElem?_erase_of_ne _ heq).trans hmap)
        | boot number watching => cases watching <;> cases hloop
        | begin number => cases hloop
        | finish number outcome => cases hloop
        | pollFails number => cases hloop
        | quit number reason => cases hloop
  · exact Or.inr (hended.step ⟨action, hstep⟩)

/-- A step that meets `condition` and does not dismiss the vault. -/
def KeepsOn (condition : App → Action → Prop) (vault : String) (before after : App) : Prop :=
  ∃ action, before.step action = some after ∧ condition before action ∧
    ¬ Dismisses before vault action

/-- After a reconciliation that found a vault wanted, the vault keeps its
daemon for as long as the steps meet `condition`, or until the daemon ends. -/
def StaysInMap (condition : App → Action → Prop) : Prop :=
  ∀ app action next vault, Reachable app → app.step action = some next →
    FindsWanted app vault action →
    ∃ number, next.daemons[vault]? = some number ∧
      ∀ last, Relation.ReflTransGen (KeepsOn condition vault) next last → Kept vault number last

theorem FindsWanted.getElem? {app next : App} {vault : String} {action : Action}
    (hfinds : FindsWanted app vault action) (hstep : app.step action = some next) :
    ∃ number, next.daemons[vault]? = some number := by
  cases action with
  | reconcile wanted keyed =>
      obtain rfl := Option.some.inj hstep
      exact reconcileDaemons_isSome hfinds.1 hfinds.2
  | advance index choice =>
      obtain ⟨command, hcommand, hstage, hwanted, hkey⟩ := hfinds
      obtain ⟨found, hfound, hadvance⟩ := advance_step hstep
      obtain rfl : command = found := by simpa [hcommand] using hfound
      simp only [App.step, App.advance, hcommand, hstage] at hstep
      obtain rfl := Option.some.inj hstep
      exact reconcileDaemons_isSome hwanted hkey
  | call kind vault => cases hfinds
  | boot number watching => cases hfinds
  | begin number => cases hfinds
  | finish number outcome => cases hfinds
  | pollFails number => cases hfinds
  | quit number reason => cases hfinds
  | relay number => cases hfinds

/-- The map holds the current daemons, and in runs in which every `Stopped`
event is relayed before the vault has a new daemon a wanted vault keeps its
daemon. -/
theorem daemon_map_tracks_running_daemons {app : App} (hreach : Reachable app) :
    MapTracks app ∧
    ∀ action next vault, app.step action = some next → FindsWanted app vault action →
      ∃ number, next.daemons[vault]? = some number ∧
        ∀ last, Relation.ReflTransGen (KeepsOn Timely vault) next last →
          Kept vault number last := by
  refine ⟨mapTracks_of_reachable hreach, ?_⟩
  intro action next vault hstep hfinds
  obtain ⟨number, hmap⟩ := hfinds.getElem? hstep
  refine ⟨number, hmap, ?_⟩
  intro last hrun
  have hnext : Reachable next := hreach.tail ⟨action, hstep⟩
  have hboth : Reachable last ∧ Kept vault number last := by
    induction hrun with
    | refl => exact ⟨hnext, Or.inl hmap⟩
    | tail _ hkeeps ih =>
        obtain ⟨later, hlater, htimely, hstays⟩ := hkeeps
        exact ⟨ih.1.tail ⟨later, hlater⟩,
          ih.2.step (stopsLast_of_reachable ih.1) hlater htimely hstays⟩
  exact hboth.2

/-- The first reconciliation that finds `v` wanted. -/
def firstReconcile : Action := .reconcile ["v"] fun _ => true

theorem first_reconcile_keeps_daemon : ∃ next number,
    App.step {} firstReconcile = some next ∧ next.daemons["v"]? = some number ∧
    ∀ last, Relation.ReflTransGen (KeepsOn Timely "v") next last → Kept "v" number last := by
  have htracks := daemon_map_tracks_running_daemons (.refl : Reachable {})
  obtain ⟨number, hmap, hkept⟩ := htracks.2 firstReconcile _ "v" rfl ⟨by simp, Or.inr rfl⟩
  exact ⟨_, number, rfl, hmap, hkept⟩

theorem run_steps {app last : App} {actions : List Action} (hrun : app.run actions = some last) :
    Relation.ReflTransGen Steps app last := by
  induction actions generalizing app with
  | nil =>
      obtain rfl := Option.some.inj hrun
      exact .refl
  | cons action rest ih =>
      obtain ⟨next, hstep, hrest⟩ := Option.bind_eq_some_iff.mp hrun
      exact .head ⟨action, hstep⟩ (ih hrest)

/-- The daemon of `v` runs, and the user has moved the folder of `v`; the app
is about to reconcile. -/
def folderMoved : App :=
  (App.run {} [.reconcile ["v"] fun _ => true, .boot 0 true, .relay 0,
    .call .moveVaultFolder "v", .advance 0 {}, .advance 0 {}, .advance 0 {}]).getD {}

/-- The daemon has been started again on the new folder. -/
def daemonRestarted : App := (folderMoved.step (.advance 0 { wanted := ["v"] })).getD {}

/-- The old daemon has received its `Stop` and reported `Stopped`. -/
def oldDaemonStopped : App := (daemonRestarted.run [.quit 0 .stopCommand, .relay 0]).getD {}

/-- After a move of the folder the `Stopped` event of the old daemon takes the
new one out of the map, and nobody asked for that. -/
theorem stopped_event_drops_restarted_daemon : ¬ StaysInMap fun _ _ => True := by
  intro hstays
  have hmoved : Reachable folderMoved := run_steps
    (show App.run {} [.reconcile ["v"] fun _ => true, .boot 0 true, .relay 0,
      .call .moveVaultFolder "v", .advance 0 {}, .advance 0 {}, .advance 0 {}] =
        some folderMoved from rfl)
  obtain ⟨number, hmap, hkept⟩ := hstays folderMoved (.advance 0 { wanted := ["v"] })
    daemonRestarted "v" hmoved rfl ⟨⟨.moveVaultFolder, "v", .reconcile⟩, rfl, rfl, by simp, by simp⟩
  have hrestarted : daemonRestarted.daemons["v"]? = some 1 := by decide +kernel
  obtain rfl : number = 1 := by simpa [hrestarted] using hmap.symm
  have hquit : KeepsOn (fun _ _ => True) "v" daemonRestarted
      ((daemonRestarted.step (.quit 0 .stopCommand)).getD {}) :=
    ⟨.quit 0 .stopCommand, rfl, trivial, id⟩
  have hrelay : KeepsOn (fun _ _ => True) "v"
      ((daemonRestarted.step (.quit 0 .stopCommand)).getD {}) oldDaemonStopped :=
    ⟨.relay 0, rfl, trivial, id⟩
  rcases hkept oldDaemonStopped (.tail (.tail .refl hquit) hrelay) with hentry | hended
  · have hnone : oldDaemonStopped.daemons["v"]? = none := by decide +kernel
    rw [hnone] at hentry
    cases hentry
  · obtain ⟨daemon, hdaemon, hphase⟩ := hended
    have hbooting : oldDaemonStopped.spawned[1]? = some { vault := "v" } := by decide +kernel
    rw [hbooting] at hdaemon
    obtain rfl := Option.some.inj hdaemon
    cases hphase

end ObSink.Desktop
