import ObSink.Core.Pacing
import ObSink.Engine.Debouncer
import ObSink.Lib.Runs

/-! # The daemon's loop

`run_daemon` of `core/src/daemon.rs` for one vault. A step is one branch of its
`select`; a poll or a cycle that a branch awaits ends in a step of its own, and
what it came to is an input. The watcher sends at any time. Instants are numbers
of milliseconds. Events to the host, replies and progress are left out.
-/

namespace ObSink.Engine

structure DaemonOptions where
  /-- A path must be untouched this long before it counts as quiet. -/
  quiet : Nat := 750
  /-- The longest a batch of quiet paths waits for stragglers. -/
  batch : Nat := 2000
  pollActive : Nat := 5000
  pollIdle : Nat := 60000
  activeWindow : Nat := 60000
  backoffBase : Nat := 5000
  backoffMax : Nat := 5 * 60000
  deriving DecidableEq, Repr

/-- Why a cycle runs; `debounced` is `Trigger::Local`. -/
inductive Trigger where
  | debounced
  | remote
  | manual
  | resolve (resolutions : List ConflictResolution)
  deriving DecidableEq, Repr

inductive DaemonCommand where
  | syncNow
  | resolve (resolutions : List ConflictResolution)
  deriving DecidableEq, Repr

def DaemonCommand.trigger : DaemonCommand → Trigger
  | .syncNow => .manual
  | .resolve resolutions => .resolve resolutions

/-- What the loop awaits: its `select`, the answer of a poll, or a cycle. -/
inductive LoopPhase where
  | selecting
  | polling
  | cycling (trigger : Trigger)
  deriving DecidableEq, Repr

/-- What a cycle comes to. -/
abbrev CycleOutcome := Except SyncEngineError SyncResult

/-- `State`, with the locals of the loop and the watcher's channel. `loopedAt` is
the time at the top of the loop. -/
structure Daemon where
  options : DaemonOptions := {}
  clock : Nat
  debouncer : Debouncer
  channel : List (List String) := []
  failures : Nat := 0
  pendingPlan : Option SyncPlan := none
  suppressedUntil : Option Nat := none
  selfWrites : Std.ExtTreeMap String Nat := ∅
  lastActivity : Nat
  lastPoll : Nat
  loopedAt : Nat
  phase : LoopPhase := .selecting

/-- How long after a cycle its own writes are still recognised as such. -/
def selfWriteGrace : Nat := 3000

inductive DaemonStep where
  | wait (ms : Nat)
  /-- The watcher sends a batch. -/
  | watch (paths : List String)
  /-- A batch is received; `stat` reads the files then. -/
  | receive (stat : String → Option Stat)
  | command (command : DaemonCommand)
  | wake (stat : String → Option Stat)
  | polled (changed : Except SyncEngineError Bool)
  | finish (outcome : CycleOutcome) (stat : String → Option Stat)

namespace Daemon

def start (options : DaemonOptions) (now : Nat) : Daemon where
  options := options
  clock := now
  debouncer := .new options.quiet options.batch
  lastActivity := now
  lastPoll := now
  loopedAt := now

/-- Back to the top of the loop. -/
def loop (daemon : Daemon) : Daemon :=
  { daemon with phase := .selecting, loopedAt := daemon.clock }

def pollDue (daemon : Daemon) : Nat :=
  let options := daemon.options
  daemon.lastPoll +
    PollPacing.interval ⟨options.pollActive, options.pollIdle, options.activeWindow⟩
      (daemon.loopedAt - daemon.lastActivity)

/-- When the sleep of the loop ends. -/
def wakeAt (daemon : Daemon) : Nat :=
  let wake := match daemon.debouncer.nextDeadline with
    | some deadline => min daemon.pollDue deadline
    | none => daemon.pollDue
  match daemon.suppressedUntil with
  | some resumes => max wake resumes
  | none => wake

/-- A fatal failure suppresses every trigger for the backoff's wait. -/
def reportFailure (daemon : Daemon) (fatal : Bool) : Daemon :=
  if fatal then
    { daemon with
      suppressedUntil := some (daemon.clock +
        backoffWait daemon.options.backoffBase daemon.options.backoffMax daemon.failures)
      failures := min (daemon.failures + 1) (2 ^ 32 - 1) }
  else daemon

def isSelfWrite (daemon : Daemon) (path : String) : Bool :=
  daemon.selfWrites[path]?.any fun written => daemon.clock - written < selfWriteGrace

/-- The debouncer observes paths, but for self-writes. -/
def observe (daemon : Daemon) (stat : String → Option Stat) (paths : List String) : Daemon :=
  { daemon with
    debouncer := paths.foldl
      (fun debouncer path =>
        if daemon.isSelfWrite path then debouncer
        else debouncer.observe path (stat path) daemon.clock)
      daemon.debouncer }

/-- What is queued already is observed, but for self-writes. -/
def dropSelfWrites (daemon : Daemon) (stat : String → Option Stat) : Daemon :=
  { daemon.observe stat daemon.channel.flatten with channel := [] }

/-- What `cycle` notes of its outcome. -/
def noteOutcome (daemon : Daemon) : CycleOutcome → Daemon
  | .ok result =>
      let daemon :=
        if result.failures.any SyncFailure.fatal ∨ result.checkpointError.isSome then
          daemon.reportFailure true
        else { daemon with failures := 0 }
      { daemon with
        selfWrites := .ofList (result.download.map fun action => (action.path, daemon.clock))
        pendingPlan := SyncPlan.fromLateConflicts result }
  | .error error => daemon.reportFailure (isFatalSyncError error)

def noteActivity (daemon : Daemon) (trigger : Trigger) (outcome : CycleOutcome) : Daemon :=
  match trigger, outcome with
  | .resolve _, _ | _, .ok _ => { daemon with lastActivity := daemon.clock }
  | _, .error _ => daemon

/-- The sleep is over: a cycle for what the debouncer lets go, else a poll. -/
def wake (daemon : Daemon) (stat : String → Option Stat) : Daemon :=
  if daemon.suppressedUntil.any fun resumes => daemon.clock < resumes then daemon.loop
  else
    let daemon := { daemon with suppressedUntil := none }
    match daemon.debouncer.due daemon.clock stat with
    | (some _, debouncer) => { daemon with debouncer, phase := .cycling .debounced }
    | (none, debouncer) =>
        let daemon := { daemon with debouncer }
        if daemon.pollDue ≤ daemon.clock then
          { daemon with lastPoll := daemon.clock, phase := .polling }
        else daemon.loop

def step (daemon : Daemon) : DaemonStep → Option Daemon
  | .wait ms => some { daemon with clock := daemon.clock + ms }
  | .watch paths => some { daemon with channel := daemon.channel ++ [paths] }
  | .receive stat =>
      match daemon.phase, daemon.channel with
      | .selecting, paths :: rest =>
          let daemon := Daemon.observe { daemon with channel := rest } stat paths
          some (loop { daemon with lastActivity := daemon.clock })
      | _, _ => none
  | .command command =>
      if daemon.phase = .selecting then some { daemon with phase := .cycling command.trigger }
      else none
  | .wake stat =>
      if daemon.phase = .selecting ∧ daemon.wakeAt ≤ daemon.clock then some (daemon.wake stat)
      else none
  | .polled changed =>
      if daemon.phase = .polling then
        match changed with
        | .ok true => some { daemon with phase := .cycling .remote }
        | .ok false => some daemon.loop
        | .error error => some (daemon.reportFailure (isFatalSyncError error)).loop
      else none
  | .finish outcome stat =>
      match daemon.phase with
      | .cycling trigger =>
          some (((daemon.noteOutcome outcome).noteActivity trigger outcome).dropSelfWrites
            stat).loop
      | _ => none

end Daemon

end ObSink.Engine
