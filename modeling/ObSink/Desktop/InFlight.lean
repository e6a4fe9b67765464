import ObSink.Desktop.Daemons

/-! # The in-flight set

Commands mark a vault as in flight for the time they work on it, and the relay
mirrors the cycles of the daemons into the same set. A daemon does not ask
before it begins a cycle, and its events arrive later than what they report, so
the set excludes two parties only in runs that are orderly in this sense.
-/

namespace ObSink.Desktop

/-- Something that works on a vault: a daemon in a cycle, or a command under
its guard. -/
inductive Activity where
  | daemon (number : Nat)
  | command (index : Nat)
  deriving DecidableEq, Repr

def Running (app : App) (vault : String) : Activity → Prop
  | .daemon number =>
      ∃ daemon, app.spawned[number]? = some daemon ∧ daemon.vault = vault ∧
        daemon.phase = .cycling
  | .command index =>
      ∃ command, app.commands[index]? = some command ∧ command.vault = vault ∧
        command.stage = .holding

/-- A sync or a resolution runs a cycle; the other commands move the folder,
forget the vault or delete it. -/
def IsCycle (app : App) : Activity → Prop
  | .daemon _ => True
  | .command index =>
      ∃ command, app.commands[index]? = some command ∧
        (command.kind = .syncVault ∨ command.kind = .resolveConflict)

/-- While a cycle of a vault runs, nothing else works on the vault. -/
def CyclesAlone (app : App) : Prop :=
  ∀ vault first second, Running app vault first → IsCycle app first →
    Running app vault second → first = second

/-- Events that take the mark of a vault away. -/
def DaemonEvent.EndsCycle (event : DaemonEvent) : Prop :=
  event = .syncFinished ∨ event = .failed ∨ event = .stopped

/-- A daemon begins a cycle while no command holds the vault and no other
daemon of it is in a cycle; a command takes the guard while no daemon is in a
cycle whose start is not relayed yet; and an end is relayed while the mark it
takes away is nobody else's. -/
def Orderly (app : App) : Action → Prop
  | .begin number =>
      ∀ daemon, app.spawned[number]? = some daemon → ∀ activity,
        ¬ Running app daemon.vault activity
  | .advance index choice =>
      ∀ command, app.commands[index]? = some command → command.stage = .guard →
        choice.leaves = false → command.vault ∉ app.inFlight →
        ∀ (number : Nat) (daemon : Daemon), app.spawned[number]? = some daemon →
          daemon.vault = command.vault → daemon.phase = .cycling → .syncStarted ∉ daemon.events
  | .relay number =>
      ∀ daemon event rest, app.spawned[number]? = some daemon → daemon.events = event :: rest →
        event.EndsCycle →
        (∀ index, ¬ Running app daemon.vault (.command index)) ∧
        ∀ (other : Nat) (found : Daemon), other ≠ number → app.spawned[other]? = some found →
          found.vault = daemon.vault → found.phase = .cycling → .syncStarted ∈ found.events
  | _ => True

/-! ## What the marks say -/

/-- A daemon in a cycle has announced it last of all. -/
def Daemon.Announces (daemon : Daemon) : Prop :=
  daemon.phase = .cycling → daemon.events = [] ∨ daemon.events.getLast? = some .syncStarted

theorem Daemon.Announces.moves {daemon next : Daemon} (hmoves : daemon.Moves next) :
    next.Announces := by
  intro hphase
  cases hmoves with
  | boot => cases hphase
  | bootFails => cases hphase
  | begin => exact Or.inr (by simp [Daemon.send])
  | finish outcome => cases hphase
  | pollFails hidle =>
      change daemon.phase = .cycling at hphase
      rw [hidle] at hphase
      cases hphase
  | quit => cases hphase

theorem Daemon.Announces.relay {daemon : Daemon} {event : DaemonEvent} {rest : List DaemonEvent}
    (hannounces : daemon.Announces) (hevents : daemon.events = event :: rest) :
    Daemon.Announces { daemon with events := rest } := by
  intro hphase
  rcases hannounces hphase with hnone | hlast
  · rw [hevents] at hnone
    cases hnone
  · rw [hevents] at hlast
    cases rest with
    | nil => exact Or.inl rfl
    | cons second others =>
        rw [List.getLast?_cons_cons] at hlast
        exact Or.inr hlast

theorem announces_of_reachable {app : App} (hreach : Reachable app) :
    AllDaemons Daemon.Announces app := by
  refine AllDaemons.of_reachable ?_ ?_ ?_ ?_ hreach
  · intro vault hphase
    cases hphase
  · exact fun daemon hannounces => hannounces
  · exact fun daemon next _ => Daemon.Announces.moves
  · exact fun daemon event rest hannounces => hannounces.relay

/-- Whoever works on a vault has its mark, a daemon as soon as the start of its
cycle was relayed, and nobody works on a vault beside another. -/
structure Guarded (app : App) : Prop where
  marked : ∀ (number : Nat) (daemon : Daemon), app.spawned[number]? = some daemon →
    daemon.phase = .cycling → daemon.events = [] → daemon.vault ∈ app.inFlight
  held : ∀ (index : Nat) (command : Command), app.commands[index]? = some command →
    command.stage = .holding → command.vault ∈ app.inFlight
  single : ∀ vault first second, Running app vault first → Running app vault second →
    first = second

/-- Every daemon in a cycle was in that cycle before. -/
def NoNewCycle (app next : App) : Prop :=
  ∀ (number : Nat) (daemon : Daemon), next.spawned[number]? = some daemon →
    daemon.phase = .cycling →
    ∃ old, app.spawned[number]? = some old ∧ old.phase = .cycling ∧ old.vault = daemon.vault ∧
      old.events = daemon.events

/-- Every command under a guard was under it before. -/
def NoNewHolder (app next : App) : Prop :=
  ∀ (index : Nat) (command : Command), next.commands[index]? = some command →
    command.stage = .holding → app.commands[index]? = some command

theorem Running.earlier {app next : App} (hcycles : NoNewCycle app next)
    (hholders : NoNewHolder app next) {vault : String} {activity : Activity}
    (hrunning : Running next vault activity) : Running app vault activity := by
  cases activity with
  | daemon number =>
      obtain ⟨daemon, hdaemon, hvault, hphase⟩ := hrunning
      obtain ⟨old, hold, holdPhase, holdVault, _⟩ := hcycles number daemon hdaemon hphase
      exact ⟨old, hold, holdVault.trans hvault, holdPhase⟩
  | command index =>
      obtain ⟨command, hcommand, hvault, hstage⟩ := hrunning
      exact ⟨command, hholders index command hcommand hstage, hvault, hstage⟩

/-- A step that starts nothing and leaves the marks alone. -/
theorem Guarded.of_no_new {app next : App} (hguarded : Guarded app)
    (hcycles : NoNewCycle app next) (hholders : NoNewHolder app next)
    (hmarks : next.inFlight = app.inFlight) : Guarded next := by
  constructor
  · intro number daemon hdaemon hphase hevents
    obtain ⟨old, hold, holdPhase, holdVault, holdEvents⟩ := hcycles number daemon hdaemon hphase
    rw [hmarks, ← holdVault]
    exact hguarded.marked number old hold holdPhase (holdEvents.trans hevents)
  · intro index command hcommand hstage
    rw [hmarks]
    exact hguarded.held index command (hholders index command hcommand hstage) hstage
  · intro vault first second hfirst hsecond
    exact hguarded.single vault first second (hfirst.earlier hcycles hholders)
      (hsecond.earlier hcycles hholders)

/-! ## Steps that start nothing -/

theorem NoNewCycle.refl (app : App) : NoNewCycle app app :=
  fun _ daemon hdaemon hphase => ⟨daemon, hdaemon, hphase, rfl, rfl⟩

theorem NoNewCycle.trans {app middle next : App} (hfirst : NoNewCycle app middle)
    (hsecond : NoNewCycle middle next) : NoNewCycle app next := by
  intro number daemon hdaemon hphase
  obtain ⟨found, hfound, hfoundPhase, hvault, hevents⟩ := hsecond number daemon hdaemon hphase
  obtain ⟨old, hold, holdPhase, holdVault, holdEvents⟩ := hfirst number found hfound hfoundPhase
  exact ⟨old, hold, holdPhase, holdVault.trans hvault, holdEvents.trans hevents⟩

theorem NoNewCycle.updateDaemon {app : App} {number : Nat} {change : Daemon → Daemon}
    (hchange : ∀ daemon, app.spawned[number]? = some daemon → (change daemon).phase = .cycling →
      daemon.phase = .cycling ∧ daemon.vault = (change daemon).vault ∧
        daemon.events = (change daemon).events) :
    NoNewCycle app (app.updateDaemon number change) := by
  intro other daemon hdaemon hphase
  simp only [App.updateDaemon, List.getElem?_modify] at hdaemon
  cases hold : app.spawned[other]? with
  | none => simp [hold] at hdaemon
  | some old =>
      by_cases heq : number = other
      · subst heq
        obtain rfl : change old = daemon := by simpa [hold] using hdaemon
        obtain ⟨holdPhase, hvault, hevents⟩ := hchange old hold hphase
        exact ⟨old, rfl, holdPhase, hvault, hevents⟩
      · obtain rfl : old = daemon := by simpa [hold, heq] using hdaemon
        exact ⟨old, rfl, hphase, rfl, rfl⟩

/-- The app has the same commands and marks, and no daemon has begun a cycle. -/
structure StartsNothing (app next : App) : Prop where
  cycles : NoNewCycle app next
  commands : next.commands = app.commands
  marks : next.inFlight = app.inFlight

theorem StartsNothing.stopDaemon {app next : App} (hnothing : StartsNothing app next)
    (vault : String) : StartsNothing app (next.stopDaemon vault) := by
  unfold App.stopDaemon
  split
  next => exact hnothing
  next number _ =>
    have hstop := @NoNewCycle.updateDaemon { next with daemons := next.daemons.erase vault } number
      Daemon.stop fun daemon _ hphase => ⟨hphase, rfl, rfl⟩
    exact ⟨hnothing.cycles.trans hstop, hnothing.commands, hnothing.marks⟩

theorem StartsNothing.spawnDaemon {app next : App} (hnothing : StartsNothing app next)
    (keyed : String → Bool) (vault : String) :
    StartsNothing app (next.spawnDaemon keyed vault) := by
  unfold App.spawnDaemon
  split
  next => exact hnothing
  next =>
    split
    next => exact hnothing
    next =>
      refine ⟨hnothing.cycles.trans ?_, hnothing.commands, hnothing.marks⟩
      intro number daemon hdaemon hphase
      rcases Nat.lt_or_ge number next.spawned.length with hold | hnew
      · simp only [List.getElem?_append_left hold] at hdaemon
        exact ⟨daemon, hdaemon, hphase, rfl, rfl⟩
      · simp only [List.getElem?_append_right hnew] at hdaemon
        rw [List.mem_singleton.mp (List.mem_of_getElem? hdaemon)] at hphase
        cases hphase

theorem StartsNothing.reconcileDaemons (app : App) (wanted : List String)
    (keyed : String → Bool) : StartsNothing app (app.reconcileDaemons wanted keyed) := by
  refine @reconcileDaemons_keeps (StartsNothing app) wanted keyed ?_ ?_ app
    ⟨.refl app, rfl, rfl⟩
  · exact fun next vault _ hnothing => hnothing.stopDaemon vault
  · exact fun next vault hnothing => hnothing.spawnDaemon keyed vault

theorem NoNewHolder.of_eq {app next : App} (hcommands : next.commands = app.commands) :
    NoNewHolder app next := by
  intro index command hcommand _
  rwa [hcommands] at hcommand

theorem NoNewHolder.setStage {app next : App} (hcommands : next.commands = app.commands)
    (index : Nat) {stage : Stage} (hstage : stage ≠ .holding) :
    NoNewHolder app (next.setStage index stage) := by
  intro other command hcommand hholding
  simp only [App.setStage, List.getElem?_modify, hcommands] at hcommand
  cases hold : app.commands[other]? with
  | none => simp [hold] at hcommand
  | some old =>
      by_cases heq : index = other
      · have hnew : { old with stage } = command := by simpa [hold, heq] using hcommand
        rw [← hnew] at hholding
        exact absurd hholding hstage
      · simpa [hold, heq] using hcommand

theorem NoNewHolder.call (app : App) (kind : Kind) (vault : String) :
    NoNewHolder app
      { app with commands := app.commands ++ [⟨kind, vault, kind.firstStage⟩] } := by
  intro index command hcommand hstage
  rcases Nat.lt_or_ge index app.commands.length with hold | hnew
  · simpa only [List.getElem?_append_left hold] using hcommand
  · simp only [List.getElem?_append_right hnew] at hcommand
    rw [List.mem_singleton.mp (List.mem_of_getElem? hcommand)] at hstage
    cases kind <;> cases hstage

/-- A step of a loop other than the start of a cycle. -/
theorem Guarded.moves {app : App} (hguarded : Guarded app) {number : Nat} {daemon : Daemon}
    {change : Daemon → Daemon} (hdaemon : app.spawned[number]? = some daemon)
    (hidle : (change daemon).phase ≠ .cycling) : Guarded (app.updateDaemon number change) := by
  apply hguarded.of_no_new
  · apply NoNewCycle.updateDaemon
    intro found hfound hphase
    obtain rfl : daemon = found := by simpa [hdaemon] using hfound
    exact absurd hphase hidle
  · exact .of_eq rfl
  · rfl

/-! ## Steps that start or end something -/

theorem Guarded.begin {app next : App} (hguarded : Guarded app) {number : Nat}
    (hstep : app.step (.begin number) = some next) (horderly : Orderly app (.begin number)) :
    Guarded next := by
  obtain ⟨daemon, hdaemon, _, rfl⟩ := inPhase_eq_some hstep
  have hfree := horderly daemon hdaemon
  have hget : ∀ other found, (app.updateDaemon number fun daemon =>
      Daemon.send { daemon with phase := .cycling } [.syncStarted]).spawned[other]? = some found →
      other = number ∧ found.vault = daemon.vault ∧ found.events ≠ [] ∨
        app.spawned[other]? = some found := by
    intro other found hfound
    simp only [App.updateDaemon, List.getElem?_modify] at hfound
    by_cases heq : number = other
    · subst heq
      have hnew : Daemon.send { daemon with phase := .cycling } [.syncStarted] = found := by
        simpa [hdaemon] using hfound
      rw [← hnew]
      exact Or.inl ⟨rfl, rfl, by simp [Daemon.send]⟩
    · exact Or.inr (by simpa [heq] using hfound)
  have hrunning : ∀ vault activity, Running (app.updateDaemon number fun daemon =>
      Daemon.send { daemon with phase := .cycling } [.syncStarted]) vault activity →
      activity = .daemon number ∧ vault = daemon.vault ∨ Running app vault activity := by
    intro vault activity hactivity
    cases activity with
    | daemon other =>
        obtain ⟨found, hfound, hvault, hphase⟩ := hactivity
        rcases hget other found hfound with ⟨rfl, hsame, _⟩ | hold
        · exact Or.inl ⟨rfl, hvault.symm.trans hsame⟩
        · exact Or.inr ⟨found, hold, hvault, hphase⟩
    | command index => exact Or.inr hactivity
  constructor
  · intro other found hfound hphase hevents
    rcases hget other found hfound with ⟨_, _, hsent⟩ | hold
    · exact absurd hevents hsent
    · exact hguarded.marked other found hold hphase hevents
  · exact hguarded.held
  · intro vault first second hfirst hsecond
    rcases hrunning vault first hfirst with ⟨rfl, rfl⟩ | hfirst
    · rcases hrunning _ second hsecond with ⟨rfl, _⟩ | hsecond
      · rfl
      · exact absurd hsecond (hfree second)
    · rcases hrunning vault second hsecond with ⟨_, rfl⟩ | hsecond
      · exact absurd hfirst (hfree first)
      · exact hguarded.single vault first second hfirst hsecond

theorem Guarded.acquire {app : App} (hguarded : Guarded app)
    (hannounces : AllDaemons Daemon.Announces app) {index : Nat} {command : Command}
    (hcommand : app.commands[index]? = some command) (hmark : command.vault ∉ app.inFlight)
    (hstarted : ∀ (number : Nat) (daemon : Daemon), app.spawned[number]? = some daemon →
      daemon.vault = command.vault → daemon.phase = .cycling → .syncStarted ∉ daemon.events) :
    Guarded
      (App.setStage { app with inFlight := insert command.vault app.inFlight } index .holding) := by
  -- whoever works on the vault would have its mark
  have hfree : ∀ activity, ¬ Running app command.vault activity := by
    intro activity hactivity
    cases activity with
    | daemon number =>
        obtain ⟨daemon, hdaemon, hvault, hphase⟩ := hactivity
        rcases hannounces daemon (List.mem_of_getElem? hdaemon) hphase with hnone | hlast
        · exact hmark (hvault ▸ hguarded.marked number daemon hdaemon hphase hnone)
        · exact hstarted number daemon hdaemon hvault hphase (List.mem_of_getLast? hlast)
    | command other =>
        obtain ⟨found, hfound, hvault, hstage⟩ := hactivity
        exact hmark (hvault ▸ hguarded.held other found hfound hstage)
  have hget : ∀ other found,
      (App.setStage { app with inFlight := insert command.vault app.inFlight } index
        .holding).commands[other]? = some found →
      other = index ∧ found.vault = command.vault ∨ app.commands[other]? = some found := by
    intro other found hfound
    simp only [App.setStage, List.getElem?_modify] at hfound
    by_cases heq : index = other
    · subst heq
      have hnew : { command with stage := .holding } = found := by
        simpa [hcommand] using hfound
      rw [← hnew]
      exact Or.inl ⟨rfl, rfl⟩
    · exact Or.inr (by simpa [heq] using hfound)
  have hrunning : ∀ vault activity,
      Running (App.setStage { app with inFlight := insert command.vault app.inFlight } index
        .holding) vault activity →
      activity = .command index ∧ vault = command.vault ∨ Running app vault activity := by
    intro vault activity hactivity
    cases activity with
    | daemon other => exact Or.inr hactivity
    | command other =>
        obtain ⟨found, hfound, hvault, hstage⟩ := hactivity
        rcases hget other found hfound with ⟨rfl, hsame⟩ | hold
        · exact Or.inl ⟨rfl, hvault.symm.trans hsame⟩
        · exact Or.inr ⟨found, hold, hvault, hstage⟩
  constructor
  · intro number daemon hdaemon hphase hevents
    exact Finset.mem_insert_of_mem (hguarded.marked number daemon hdaemon hphase hevents)
  · intro other found hfound hstage
    rcases hget other found hfound with ⟨_, hsame⟩ | hold
    · rw [hsame]
      exact Finset.mem_insert_self _ _
    · exact Finset.mem_insert_of_mem (hguarded.held other found hold hstage)
  · intro vault first second hfirst hsecond
    rcases hrunning vault first hfirst with ⟨rfl, rfl⟩ | hfirst
    · rcases hrunning _ second hsecond with ⟨rfl, _⟩ | hsecond
      · rfl
      · exact absurd hsecond (hfree second)
    · rcases hrunning vault second hsecond with ⟨_, rfl⟩ | hsecond
      · exact absurd hfirst (hfree first)
      · exact hguarded.single vault first second hfirst hsecond

theorem Guarded.release {app : App} (hguarded : Guarded app) {index : Nat} {command : Command}
    (hcommand : app.commands[index]? = some command) (hholding : command.stage = .holding)
    {stage : Stage} (hstage : stage ≠ .holding) :
    Guarded
      (App.setStage { app with inFlight := app.inFlight.erase command.vault } index stage) := by
  have hself : Running app command.vault (.command index) := ⟨command, hcommand, rfl, hholding⟩
  have hholders : NoNewHolder app
      (App.setStage { app with inFlight := app.inFlight.erase command.vault } index stage) :=
    .setStage rfl index hstage
  have hcycles : NoNewCycle app
      (App.setStage { app with inFlight := app.inFlight.erase command.vault } index stage) :=
    .refl app
  constructor
  · intro number daemon hdaemon hphase hevents
    refine Finset.mem_erase.mpr ⟨?_, hguarded.marked number daemon hdaemon hphase hevents⟩
    intro hvault
    have hsame := hguarded.single command.vault (.daemon number) (.command index)
      ⟨daemon, hdaemon, hvault, hphase⟩ hself
    cases hsame
  · intro other found hfound hfoundStage
    have hold := hholders other found hfound hfoundStage
    refine Finset.mem_erase.mpr ⟨?_, hguarded.held other found hold hfoundStage⟩
    intro hvault
    have hsame := hguarded.single command.vault (.command other) (.command index)
      ⟨found, hold, hvault, hfoundStage⟩ hself
    obtain rfl := Activity.command.inj hsame
    obtain rfl : command = found := by simpa [hcommand] using hold
    simp only [App.setStage, List.getElem?_modify, hcommand] at hfound
    have hnew : { command with stage } = command := by simpa using hfound
    exact hstage ((congrArg Command.stage hnew).trans hholding)
  · intro vault first second hfirst hsecond
    exact hguarded.single vault first second (hfirst.earlier hcycles hholders)
      (hsecond.earlier hcycles hholders)

/-- A relayed event, with the marks it leaves. -/
theorem Guarded.popped {app next : App} (hguarded : Guarded app) {number : Nat} {daemon : Daemon}
    {rest : List DaemonEvent} (hdaemon : app.spawned[number]? = some daemon)
    (hspawned : next.spawned = app.spawned.modify number fun daemon =>
      { daemon with events := rest }) (hcommands : next.commands = app.commands)
    (hheld : ∀ (index : Nat) (command : Command), app.commands[index]? = some command →
      command.stage = .holding → command.vault ∈ next.inFlight)
    (hothers : ∀ (other : Nat) (found : Daemon), other ≠ number →
      app.spawned[other]? = some found → found.phase = .cycling → found.events = [] →
      found.vault ∈ next.inFlight)
    (hown : daemon.phase = .cycling → rest = [] → daemon.vault ∈ next.inFlight) :
    Guarded next := by
  have hget : ∀ (other : Nat) (found : Daemon), next.spawned[other]? = some found →
      other = number ∧ found = { daemon with events := rest } ∨
        other ≠ number ∧ app.spawned[other]? = some found := by
    intro other found hfound
    rw [hspawned, List.getElem?_modify] at hfound
    by_cases heq : number = other
    · subst heq
      refine Or.inl ⟨rfl, ?_⟩
      simpa [hdaemon, eq_comm] using hfound
    · exact Or.inr ⟨Ne.symm heq, by simpa [heq] using hfound⟩
  have hrunning : ∀ vault activity, Running next vault activity → Running app vault activity := by
    intro vault activity hactivity
    cases activity with
    | daemon other =>
        obtain ⟨found, hfound, hvault, hphase⟩ := hactivity
        rcases hget other found hfound with ⟨rfl, rfl⟩ | ⟨_, hold⟩
        · exact ⟨daemon, hdaemon, hvault, hphase⟩
        · exact ⟨found, hold, hvault, hphase⟩
    | command index =>
        obtain ⟨command, hcommand, hrest⟩ := hactivity
        exact ⟨command, hcommands ▸ hcommand, hrest⟩
  constructor
  · intro other found hfound hphase hevents
    rcases hget other found hfound with ⟨rfl, rfl⟩ | ⟨hne, hold⟩
    · exact hown hphase hevents
    · exact hothers other found hne hold hphase hevents
  · intro index command hcommand hstage
    exact hheld index command (hcommands ▸ hcommand) hstage
  · intro vault first second hfirst hsecond
    exact hguarded.single vault first second (hrunning vault first hfirst)
      (hrunning vault second hsecond)

theorem Guarded.relay {app next : App} (hguarded : Guarded app)
    (hannounces : AllDaemons Daemon.Announces app) {number : Nat}
    (hstep : app.step (.relay number) = some next) (horderly : Orderly app (.relay number)) :
    Guarded next := by
  obtain ⟨daemon, event, rest, hdaemon, hevents, rfl⟩ := relay_step hstep
  -- the last event of a daemon in a cycle announces the cycle
  have hlast : daemon.phase = .cycling → rest = [] → event = .syncStarted := by
    intro hphase hrest
    subst hrest
    rcases hannounces daemon (List.mem_of_getElem? hdaemon) hphase with hnone | hannounced
    · rw [hevents] at hnone
      cases hnone
    · simpa [hevents] using hannounced
  have hquiet : event ≠ .syncStarted →
      Guarded (app.updateDaemon number fun daemon => { daemon with events := rest }) := by
    intro hevent
    exact hguarded.popped hdaemon rfl rfl hguarded.held
      (fun other found _ => hguarded.marked other found)
      (fun hphase hrest => absurd (hlast hphase hrest) hevent)
  have hends : event.EndsCycle → ∀ next : App,
      next.spawned = app.spawned.modify number (fun daemon => { daemon with events := rest }) →
      next.commands = app.commands → next.inFlight = app.inFlight.erase daemon.vault →
      Guarded next := by
    intro hevent next hspawned hcommands hmarks
    obtain ⟨hnobody, hannounced⟩ := horderly daemon event rest hdaemon hevents hevent
    refine hguarded.popped hdaemon hspawned hcommands ?_ ?_ ?_
    · intro index command hcommand hstage
      rw [hmarks]
      refine Finset.mem_erase.mpr ⟨?_, hguarded.held index command hcommand hstage⟩
      intro hvault
      exact hnobody index ⟨command, hcommand, hvault, hstage⟩
    · intro other found hne hfound hphase hnone
      rw [hmarks]
      refine Finset.mem_erase.mpr ⟨?_, hguarded.marked other found hfound hphase hnone⟩
      intro hvault
      have hmem := hannounced other found hne hfound hvault hphase
      rw [hnone] at hmem
      cases hmem
    · intro hphase hrest
      rw [hlast hphase hrest] at hevent
      rcases hevent with hevent | hevent | hevent <;> cases hevent
  cases event with
  | started => exact hquiet (by simp)
  | conflictsPending => exact hquiet (by simp)
  | syncStarted =>
      refine hguarded.popped hdaemon rfl rfl ?_ ?_ ?_
      · intro index command hcommand hstage
        exact Finset.mem_insert_of_mem (hguarded.held index command hcommand hstage)
      · intro other found _ hfound hphase hnone
        exact Finset.mem_insert_of_mem (hguarded.marked other found hfound hphase hnone)
      · exact fun _ _ => Finset.mem_insert_self _ _
  | syncFinished => exact hends (Or.inl rfl) _ rfl rfl rfl
  | failed => exact hends (Or.inr (Or.inl rfl)) _ rfl rfl rfl
  | stopped => exact hends (Or.inr (Or.inr rfl)) _ rfl rfl rfl

/-! ## Orderly runs -/

/-- One orderly step. -/
theorem Guarded.step {app next : App} {action : Action} (hguarded : Guarded app)
    (hannounces : AllDaemons Daemon.Announces app) (hstep : app.step action = some next)
    (horderly : Orderly app action) : Guarded next := by
  cases action with
  | reconcile wanted keyed =>
      obtain rfl := Option.some.inj hstep
      have hnothing := StartsNothing.reconcileDaemons app wanted keyed
      exact hguarded.of_no_new hnothing.cycles (.of_eq hnothing.commands) hnothing.marks
  | call kind vault =>
      obtain rfl := Option.some.inj hstep
      exact hguarded.of_no_new (.refl app) (.call app kind vault) rfl
  | advance index choice =>
      obtain ⟨command, hcommand, hadvance⟩ := advance_step hstep
      cases hadvance with
      | waits stage _ hnew => exact hguarded.of_no_new (.refl app) (.setStage rfl index hnew) rfl
      | stops =>
          have hnothing := (StartsNothing.mk (.refl app) rfl rfl).stopDaemon command.vault
          exact hguarded.of_no_new hnothing.cycles
            (.setStage hnothing.commands index (by simp)) hnothing.marks
      | acquires hstage hfree hstays =>
          exact hguarded.acquire hannounces hcommand hfree
            (horderly command hcommand hstage hstays hfree)
      | releases hstage =>
          exact hguarded.release hcommand hstage command.kind.lastStage_ne_holding
      | reconciles =>
          have hnothing := StartsNothing.reconcileDaemons app choice.wanted choice.keyed
          exact hguarded.of_no_new hnothing.cycles
            (.setStage hnothing.commands index (by simp)) hnothing.marks
  | boot number watching =>
      cases watching with
      | true =>
          obtain ⟨daemon, hdaemon, _, rfl⟩ := inPhase_eq_some hstep
          exact hguarded.moves hdaemon (by simp [Daemon.send])
      | false =>
          obtain ⟨daemon, hdaemon, _, rfl⟩ := inPhase_eq_some hstep
          exact hguarded.moves hdaemon (by simp)
  | begin number => exact hguarded.begin hstep horderly
  | finish number outcome =>
      obtain ⟨daemon, hdaemon, _, rfl⟩ := inPhase_eq_some hstep
      exact hguarded.moves hdaemon (by simp [Daemon.send])
  | pollFails number =>
      obtain ⟨daemon, hdaemon, hphase, rfl⟩ := inPhase_eq_some hstep
      exact hguarded.moves hdaemon (by simp [Daemon.send, hphase])
  | quit number reason =>
      simp only [App.step] at hstep
      split at hstep
      next => cases hstep
      next =>
        split at hstep
        next =>
          obtain ⟨daemon, hdaemon, _, rfl⟩ := inPhase_eq_some hstep
          exact hguarded.moves hdaemon (by simp [Daemon.send])
        next => cases hstep
  | relay number => exact hguarded.relay hannounces hstep horderly

/-- A step that meets `condition`. -/
def StepsWith (condition : App → Action → Prop) (before after : App) : Prop :=
  ∃ action, before.step action = some after ∧ condition before action

/-- In every state of every run whose steps meet `condition`, a cycle of a
vault runs alone on it. -/
def NeverOverlaps (condition : App → Action → Prop) : Prop :=
  ∀ app, Relation.ReflTransGen (StepsWith condition) {} app → CyclesAlone app

/-- In orderly runs a cycle is alone on its vault. -/
theorem orderly_cycles_never_overlap {app : App}
    (hrun : Relation.ReflTransGen (StepsWith Orderly) {} app) : CyclesAlone app := by
  have hboth : Reachable app ∧ Guarded app := by
    induction hrun with
    | refl =>
        refine ⟨.refl, ?_, ?_, ?_⟩
        · intro number daemon hdaemon
          simp at hdaemon
        · intro index command hcommand
          simp at hcommand
        · intro vault first second hfirst
          cases first with
          | daemon number =>
              obtain ⟨daemon, hdaemon, _⟩ := hfirst
              simp at hdaemon
          | command index =>
              obtain ⟨command, hcommand, _⟩ := hfirst
              simp at hcommand
    | tail _ hstep ih =>
        obtain ⟨action, hstep, horderly⟩ := hstep
        exact ⟨ih.1.tail ⟨action, hstep⟩,
          ih.2.step (announces_of_reachable ih.1) hstep horderly⟩
  intro vault first second hfirst _ hsecond
  exact hboth.2.single vault first second hfirst hsecond

/-- The daemon of `v` has started, and the relay has heard of it. -/
def daemonIdle : App := (App.run {} [firstReconcile, .boot 0 true, .relay 0]).getD {}

def firstCycle : App := (daemonIdle.step (.begin 0)).getD {}

theorem orderly_firstCycle : Relation.ReflTransGen (StepsWith Orderly) {} firstCycle := by
  let reconciled : App := (App.step {} firstReconcile).getD {}
  let booted : App := (reconciled.step (.boot 0 true)).getD {}
  have hreconcile : StepsWith Orderly {} reconciled := ⟨firstReconcile, rfl, trivial⟩
  have hboot : StepsWith Orderly reconciled booted := ⟨.boot 0 true, rfl, trivial⟩
  have hrelay : StepsWith Orderly booted daemonIdle := by
    refine ⟨.relay 0, rfl, ?_⟩
    intro daemon event rest hdaemon hevents hends
    -- the only event there is reports the start
    have hbooted : booted.spawned[0]? = some ⟨"v", false, .idle, [.started]⟩ := rfl
    obtain rfl := Option.some.inj (hbooted.symm.trans hdaemon)
    obtain ⟨rfl, -⟩ := List.cons.inj hevents
    simp [DaemonEvent.EndsCycle] at hends
  have hbegin : StepsWith Orderly daemonIdle firstCycle := by
    refine ⟨.begin 0, rfl, ?_⟩
    intro daemon _ activity hrunning
    have hidle : daemonIdle.spawned = [⟨"v", false, .idle, []⟩] ∧ daemonIdle.commands = [] :=
      ⟨rfl, rfl⟩
    cases activity with
    | daemon number =>
        obtain ⟨found, hfound, -, hphase⟩ := hrunning
        rw [hidle.1] at hfound
        grind
    | command index =>
        obtain ⟨found, hfound, -⟩ := hrunning
        rw [hidle.2] at hfound
        cases hfound
  exact (((Relation.ReflTransGen.single hreconcile).tail hboot).tail hrelay).tail hbegin

/-- The relay has heard of the cycle when the user removes `v`. -/
def removalAsked : App := (firstCycle.run [.relay 0, .call .removeVault "v"]).getD {}

def removalRefused : App := (removalAsked.step (.advance 0 {})).getD {}

/-- The removal is refused, and the cycle goes on alone. -/
theorem removal_is_refused_in_cycle :
    removalRefused.commands = [⟨.removeVault, "v", .reconcile⟩] ∧
      Running removalRefused "v" (.daemon 0) ∧ CyclesAlone removalRefused := by
  let heard : App := (firstCycle.step (.relay 0)).getD {}
  have hrelay : StepsWith Orderly firstCycle heard := by
    refine ⟨.relay 0, rfl, ?_⟩
    intro daemon event rest hdaemon hevents hends
    have hcycle : firstCycle.spawned[0]? = some ⟨"v", false, .cycling, [.syncStarted]⟩ := rfl
    obtain rfl := Option.some.inj (hcycle.symm.trans hdaemon)
    obtain ⟨rfl, -⟩ := List.cons.inj hevents
    simp [DaemonEvent.EndsCycle] at hends
  have hcall : StepsWith Orderly heard removalAsked := ⟨.call .removeVault "v", rfl, trivial⟩
  have hadvance : StepsWith Orderly removalAsked removalRefused := by
    refine ⟨.advance 0 {}, rfl, ?_⟩
    intro command hcommand _ _ hfree
    have hasked : removalAsked.commands[0]? = some ⟨.removeVault, "v", .guard⟩ := rfl
    obtain rfl := Option.some.inj (hasked.symm.trans hcommand)
    -- the mark of the cycle is there
    have hmarked : "v" ∈ removalAsked.inFlight := by decide
    exact absurd hmarked hfree
  have hrun : Relation.ReflTransGen (StepsWith Orderly) {} removalRefused :=
    ((orderly_firstCycle.tail hrelay).tail hcall).tail hadvance
  exact ⟨rfl, ⟨⟨"v", false, .cycling, []⟩, rfl, rfl, rfl⟩, orderly_cycles_never_overlap hrun⟩

/-- The user removes `v` while its daemon is in a cycle whose start has not
been relayed. -/
def removedDuringCycle : App :=
  (App.run {} [.reconcile ["v"] fun _ => true, .boot 0 true, .relay 0, .begin 0,
    .call .removeVault "v", .advance 0 {}]).getD {}

theorem removal_overlaps_cycle_of_daemon : ¬ NeverOverlaps fun _ _ => True := by
  intro hnever
  have hrun : Relation.ReflTransGen Steps {} removedDuringCycle := run_steps
    (show App.run {} [.reconcile ["v"] fun _ => true, .boot 0 true, .relay 0, .begin 0,
      .call .removeVault "v", .advance 0 {}] = some removedDuringCycle from rfl)
  have halone := hnever removedDuringCycle (Relation.ReflTransGen.mono
    (fun before after ⟨action, hstep⟩ => ⟨action, hstep, trivial⟩) _ _ hrun)
  have hsame := halone "v" (.daemon 0) (.command 0)
    ⟨⟨"v", false, .cycling, [.syncStarted]⟩, rfl, rfl, rfl⟩ trivial
    ⟨⟨.removeVault, "v", .holding⟩, rfl, rfl, rfl⟩
  cases hsame

end ObSink.Desktop
