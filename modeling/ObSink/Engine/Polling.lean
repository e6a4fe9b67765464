import ObSink.Engine.RunDaemon

/-! # The daemon's remote poll

`remote_changed` and `fetch_remote_manifest` of `core/src/sync_engine.rs` under
the loop of the daemon, beside the status checks of the desktop, the CLI and the
phone, which read the manifest through the same cache. A manifest is named by
its revision, which is its ETag. Whether the cache can be written is an input;
when it cannot, the old one stays.
-/

namespace ObSink.Engine

/-- The daemon with the server's revision and the cached one. `news` is the last
revision that someone else made; `planned` is the one the present cycle planned
from. -/
structure Polling where
  daemon : Daemon
  revision : Nat
  news : Nat
  cache : Option Nat
  planned : Option Nat := none
  ended : List (Option Nat × CycleOutcome) := []

inductive PollingStep where
  | loop (step : DaemonStep)
  /-- The server accepts a change: of this daemon's cycle, or of anyone else. -/
  | push (own : Bool)
  | poll (saves : Bool)
  /-- `prepare_sync` fetches the manifest. -/
  | plan (saves : Bool)
  /-- The checkpoint of `complete_sync` fetches it again. -/
  | reread (saves : Bool)
  /-- `vault_diff`, `run_status` or `vault_status` fetches it. -/
  | status (saves : Bool)

namespace Polling

/-- The manifest through the cache: a 304 leaves it, else it is written. -/
def fetchRemoteManifest (p : Polling) (saves : Bool) : Nat × Option Nat :=
  if p.cache = some p.revision then (p.revision, p.cache)
  else (p.revision, if saves then some p.revision else p.cache)

/-- Whether the server's manifest differs from the cached one, and the cache. -/
def remoteChanged (p : Polling) (saves : Bool) : Bool × Option Nat :=
  match p.cache with
  | none => (true, none)
  | some cached =>
      if cached = p.revision then (false, some cached)
      else (true, if saves then some p.revision else some cached)

/-- A cycle plans anew unless it resolves the plan that is pending. -/
def Plans (daemon : Daemon) : Trigger → Bool
  | .resolve _ => daemon.pendingPlan.isNone
  | _ => true

/-- A cycle runs that has its plan. -/
def Executes (p : Polling) : Bool :=
  match p.daemon.phase with
  | .cycling trigger => !Plans p.daemon trigger || p.planned.isSome
  | _ => false

def step (p : Polling) : PollingStep → Option Polling
  | .push own =>
      let revision := p.revision + 1
      if own then if p.Executes then some { p with revision } else none
      else some { p with revision, news := revision }
  | .status saves => some { p with cache := (p.fetchRemoteManifest saves).2 }
  | .poll saves =>
      let (changed, cache) := p.remoteChanged saves
      (p.daemon.step (.polled (.ok changed))).map fun daemon => { p with daemon, cache }
  | .plan saves =>
      match p.daemon.phase with
      | .cycling trigger =>
          if Plans p.daemon trigger ∧ p.planned = none then
            let (planned, cache) := p.fetchRemoteManifest saves
            some { p with planned := some planned, cache }
          else none
      | _ => none
  | .reread saves =>
      if p.Executes then some { p with cache := (p.fetchRemoteManifest saves).2 } else none
  | .loop (.polled (.ok _)) => none
  | .loop (.finish outcome stat) =>
      match p.daemon.phase with
      | .cycling trigger =>
          -- A cycle that should plan and did not ends with an error.
          if Plans p.daemon trigger ∧ p.planned = none ∧ outcome.isOk then none
          else
            (p.daemon.step (.finish outcome stat)).map fun daemon =>
              { p with daemon, planned := none, ended := p.ended ++ [(p.planned, outcome)] }
      | _ => none
  | .loop step => (p.daemon.step step).map fun daemon => { p with daemon }

/-! ## What is promised -/

/-- No fatal failure and no checkpoint error. -/
def EndsWell : CycleOutcome → Prop
  | .ok result =>
      (∀ failure ∈ result.failures, failure.fatal = false) ∧ result.checkpointError = none
  | .error _ => False

instance (outcome : CycleOutcome) : Decidable (EndsWell outcome) := by
  unfold EndsWell
  split <;> infer_instance

/-- A cycle that planned from a revision or a later one has ended well. -/
def PlannedFrom (p : Polling) (revision : Nat) : Prop :=
  ∃ cycle ∈ p.ended, EndsWell cycle.2 ∧ ∃ planned ∈ cycle.1, revision ≤ planned

/-- The present cycle has planned from a revision or a later one, or has still to
plan. -/
def InHand (p : Polling) (revision : Nat) : Prop :=
  ∃ trigger, p.daemon.phase = .cycling trigger ∧
    ((∃ planned ∈ p.planned, revision ≤ planned) ∨
      p.planned = none ∧ Plans p.daemon trigger = true)

/-- The server's revision, or the last one that someone else made. -/
def latest (own : Bool) (p : Polling) : Nat :=
  if own then p.revision else p.news

/-- A fetch brings a revision into the cache that no cycle planned from, nor the
present one. -/
def Unseen (own : Bool) (p : Polling) (saves : Bool) : Prop :=
  saves = true ∧ p.cache ≠ some p.revision ∧
    ¬p.PlannedFrom (p.latest own) ∧ ¬p.InHand (p.latest own)

/-- The cache names the server's revision, and no cycle that planned from it has
ended well. -/
def Stranded (own : Bool) (p : Polling) : Prop :=
  p.cache = some p.revision ∧ ¬p.PlannedFrom (p.latest own)

/-- No status check and no checkpoint brings an unseen revision into the cache,
and a cycle that ends badly strands none there. -/
def Regular (own : Bool) (p : Polling) : PollingStep → Prop
  | .status saves | .reread saves => ¬p.Unseen own saves
  | .loop (.finish outcome _) => EndsWell outcome ∨ ¬p.Stranded own
  | _ => True

def start (options : DaemonOptions) (now revision : Nat) (first : Option Nat) : Polling where
  daemon := .start options now
  revision := revision
  news := revision
  cache := first

/-! ## Every regular run -/

variable {own : Bool} {p next : Polling}

theorem remoteChanged_eq_false {saves : Bool} :
    (p.remoteChanged saves).1 = false ↔ p.cache = some p.revision := by
  unfold remoteChanged
  cases p.cache with
  | none => simp
  | some cached =>
      dsimp only
      split
      next hsame => simp [hsame]
      next hmoved => simp [hmoved]

theorem mem_remoteChanged {saves : Bool} {cached : Nat}
    (hmem : cached ∈ (p.remoteChanged saves).2) : cached ∈ p.cache ∨ cached = p.revision := by
  unfold remoteChanged at hmem
  split at hmem
  next hnone => cases hmem
  next before hsome =>
    rw [hsome]
    split at hmem
    next => exact .inl hmem
    next =>
      cases saves with
      | true => exact .inr (Option.mem_some.mp hmem).symm
      | false => exact .inl hmem

theorem mem_fetchRemoteManifest {saves : Bool} {cached : Nat}
    (hmem : cached ∈ (p.fetchRemoteManifest saves).2) :
    cached ∈ p.cache ∨ saves = true ∧ p.cache ≠ some p.revision ∧ cached = p.revision := by
  unfold fetchRemoteManifest at hmem
  split at hmem
  next => exact .inl hmem
  next hmoved =>
    cases saves with
    | true => exact .inr ⟨rfl, hmoved, (Option.mem_some.mp hmem).symm⟩
    | false => exact .inl hmem

theorem fetchRemoteManifest_revision (p : Polling) (saves : Bool) :
    (p.fetchRemoteManifest saves).1 = p.revision := by
  unfold fetchRemoteManifest
  split <;> rfl

/-- The revision of the server is accounted for once it is cached: a cycle that
planned from it has ended well, or the present one has it in hand. -/
structure Accounted (own : Bool) (p : Polling) : Prop where
  news_le : p.news ≤ p.revision
  cached_le : ∀ cached ∈ p.cache, cached ≤ p.revision
  current : p.cache = some p.revision → p.PlannedFrom (p.latest own) ∨ p.InHand (p.latest own)
  idle : (∀ trigger, p.daemon.phase ≠ .cycling trigger) → p.planned = none

theorem Accounted.latest_le (haccounted : Accounted own p) : p.latest own ≤ p.revision := by
  cases own with
  | true => exact Nat.le_refl _
  | false => exact haccounted.news_le

theorem Accounted.start {options : DaemonOptions} {now revision : Nat} {first : Option Nat}
    (hfirst : ∀ cached ∈ first, cached < revision) :
    Accounted own (start options now revision first) where
  news_le := Nat.le_refl _
  cached_le := fun cached hcached => (hfirst cached hcached).le
  current := fun hcached => absurd (hfirst revision hcached) (Nat.lt_irrefl _)
  idle := fun _ => rfl

/-- A step of the loop that ends no cycle leaves a cycle as it is. -/
theorem loop_keeps_cycle {daemon after : Daemon} {step : DaemonStep}
    (hfinish : ∀ outcome stat, step ≠ .finish outcome stat) (hstep : daemon.step step = some after)
    {trigger : Trigger} (hphase : daemon.phase = .cycling trigger) :
    after.phase = .cycling trigger ∧ after.pendingPlan = daemon.pendingPlan := by
  cases step with
  | wait | watch =>
      obtain rfl := Option.some.inj hstep
      exact ⟨hphase, rfl⟩
  | receive | command | wake | polled =>
      simp only [Daemon.step, hphase] at hstep
      simp at hstep
  | finish outcome stat => exact absurd rfl (hfinish outcome stat)

theorem plans_congr {daemon after : Daemon} (hsame : after.pendingPlan = daemon.pendingPlan)
    (trigger : Trigger) : Plans after trigger = Plans daemon trigger := by
  cases trigger <;> simp [Plans, hsame]

/-- Without a cycle nothing is in hand. -/
theorem Accounted.planned_of_idle (haccounted : Accounted own p)
    (hidle : ∀ trigger, p.daemon.phase ≠ .cycling trigger) (hcached : p.cache = some p.revision) :
    p.PlannedFrom (p.latest own) := by
  rcases haccounted.current hcached with hplanned | ⟨trigger, hcycling, -⟩
  · exact hplanned
  · exact absurd hcycling (hidle trigger)

/-- After a push the cache names an older revision. -/
theorem Accounted.push (haccounted : Accounted own p) {news : Nat} (hnews : news ≤ p.revision + 1) :
    Accounted own { p with revision := p.revision + 1, news } where
  news_le := hnews
  cached_le := fun cached hcached => (haccounted.cached_le cached hcached).trans (Nat.le_succ _)
  current := fun hcached => absurd (haccounted.cached_le _ hcached) (Nat.not_succ_le_self _)
  idle := haccounted.idle

theorem Accounted.loop (haccounted : Accounted own p) (step : DaemonStep) {daemon : Daemon}
    (hfinish : ∀ outcome stat, step ≠ .finish outcome stat)
    (hstep : p.daemon.step step = some daemon) : Accounted own { p with daemon } where
  news_le := haccounted.news_le
  cached_le := haccounted.cached_le
  current := by
    intro hcached
    rcases haccounted.current hcached with hplanned | ⟨trigger, hphase, hinhand⟩
    · exact .inl hplanned
    · obtain ⟨hphase', hpending⟩ := loop_keeps_cycle hfinish hstep hphase
      refine .inr ⟨trigger, hphase', hinhand.imp_right fun ⟨hnone, hplans⟩ => ⟨hnone, ?_⟩⟩
      rw [plans_congr hpending, hplans]
  idle := fun hidle => haccounted.idle fun trigger hphase =>
    hidle trigger (loop_keeps_cycle hfinish hstep hphase).1

theorem Accounted.poll (haccounted : Accounted own p) {saves : Bool}
    (hstep : p.step (.poll saves) = some next) : Accounted own next := by
  obtain ⟨daemon, hdaemon, rfl⟩ := Option.map_eq_some_iff.mp hstep
  have hcachedLe : ∀ cached ∈ (p.remoteChanged saves).2, cached ≤ p.revision := by
    intro cached hcached
    rcases mem_remoteChanged hcached with hold | rfl
    · exact haccounted.cached_le cached hold
    · exact Nat.le_refl _
  simp only [Daemon.step] at hdaemon
  split at hdaemon
  next hphase =>
    have hidle : ∀ trigger, p.daemon.phase ≠ .cycling trigger := by simp [hphase]
    have hnone : p.planned = none := haccounted.idle hidle
    split at hdaemon
    next hchanged =>
      -- the cycle that begins is still to plan
      obtain rfl := Option.some.inj hdaemon
      exact ⟨haccounted.news_le, hcachedLe, fun _ => .inr ⟨.remote, rfl, .inr ⟨hnone, rfl⟩⟩,
        fun hidle => absurd rfl (hidle .remote)⟩
    next hsame =>
      obtain rfl := Option.some.inj hdaemon
      have hcache : p.cache = some p.revision := remoteChanged_eq_false.mp (Except.ok.inj hsame)
      exact ⟨haccounted.news_le, hcachedLe, fun _ => .inl (haccounted.planned_of_idle hidle hcache),
        fun _ => hnone⟩
    next herror => cases herror
  next => cases hdaemon

theorem Accounted.plan (haccounted : Accounted own p) {saves : Bool}
    (hstep : p.step (.plan saves) = some next) : Accounted own next := by
  simp only [step] at hstep
  split at hstep
  next trigger hphase =>
    split at hstep
    next =>
      obtain rfl := Option.some.inj hstep
      refine ⟨haccounted.news_le, fun cached hcached => ?_, fun _ => ?_,
        fun hidle => absurd hphase (hidle trigger)⟩
      · rcases mem_fetchRemoteManifest hcached with hold | ⟨-, -, rfl⟩
        · exact haccounted.cached_le cached hold
        · exact Nat.le_refl _
      · refine .inr ⟨trigger, hphase, .inl ⟨_, rfl, ?_⟩⟩
        rw [fetchRemoteManifest_revision]
        exact haccounted.latest_le
    next => cases hstep
  next => cases hstep

/-- A status check, and the checkpoint's fetch. -/
theorem Accounted.fetch (haccounted : Accounted own p) {saves : Bool}
    (hregular : ¬p.Unseen own saves) :
    Accounted own { p with cache := (p.fetchRemoteManifest saves).2 } where
  news_le := haccounted.news_le
  cached_le := by
    intro cached hcached
    rcases mem_fetchRemoteManifest hcached with hold | ⟨-, -, rfl⟩
    · exact haccounted.cached_le cached hold
    · exact Nat.le_refl _
  current := by
    intro hcached
    rcases mem_fetchRemoteManifest (Option.mem_def.mpr hcached) with hold | ⟨hsaves, hmoved, -⟩
    · exact haccounted.current hold
    · by_contra hneither
      exact hregular ⟨hsaves, hmoved, fun hplanned => hneither (.inl hplanned),
        fun hinhand => hneither (.inr hinhand)⟩
  idle := haccounted.idle

theorem PlannedFrom.finish {revision : Nat} (hplanned : p.PlannedFrom revision) (daemon : Daemon)
    (cycle : Option Nat × CycleOutcome) :
    PlannedFrom { p with daemon, planned := none, ended := p.ended ++ [cycle] } revision := by
  obtain ⟨earlier, hmem, hends⟩ := hplanned
  exact ⟨earlier, List.mem_append_left _ hmem, hends⟩

theorem Accounted.finish (haccounted : Accounted own p) {outcome : CycleOutcome}
    {stat : String → Option Stat} (hregular : p.Regular own (.loop (.finish outcome stat)))
    (hstep : p.step (.loop (.finish outcome stat)) = some next) : Accounted own next := by
  simp only [step] at hstep
  split at hstep
  next trigger hphase =>
    split at hstep
    next => cases hstep
    next hplanned =>
      obtain ⟨daemon, hdaemon, rfl⟩ := Option.map_eq_some_iff.mp hstep
      refine ⟨haccounted.news_le, haccounted.cached_le, fun hcached => .inl ?_, fun _ => rfl⟩
      rcases haccounted.current hcached with hbefore | ⟨other, hother, hinhand⟩
      · exact hbefore.finish daemon _
      · rcases hregular with hends | hstranded
        · rcases hinhand with hread | ⟨hnone, hplans⟩
          · exact ⟨_, List.mem_append_right _ (List.mem_singleton_self _), hends, hread⟩
          · -- a cycle that is to plan and did not does not end well
            rw [hphase] at hother
            obtain rfl := LoopPhase.cycling.inj hother
            refine absurd ⟨hplans, hnone, ?_⟩ hplanned
            cases outcome with
            | ok result => rfl
            | error error => exact hends.elim
        · by_contra hmissed
          exact hstranded ⟨hcached, fun hbefore => hmissed (hbefore.finish daemon _)⟩
  next => cases hstep

theorem Accounted.step (haccounted : Accounted own p) {step : PollingStep}
    (hregular : p.Regular own step) (hstep : p.step step = some next) : Accounted own next := by
  cases step with
  | push mine =>
      simp only [Polling.step] at hstep
      split at hstep
      next =>
        split at hstep
        next =>
          obtain rfl := Option.some.inj hstep
          exact haccounted.push (haccounted.news_le.trans (Nat.le_succ _))
        next => cases hstep
      next =>
        obtain rfl := Option.some.inj hstep
        exact haccounted.push (Nat.le_refl _)
  | poll saves => exact haccounted.poll hstep
  | plan saves => exact haccounted.plan hstep
  | reread saves =>
      simp only [Polling.step] at hstep
      split at hstep
      next =>
        obtain rfl := Option.some.inj hstep
        exact haccounted.fetch hregular
      next => cases hstep
  | status saves =>
      obtain rfl := Option.some.inj hstep
      exact haccounted.fetch hregular
  | loop step =>
      cases step with
      | finish outcome stat => exact haccounted.finish hregular hstep
      | polled changed =>
          cases changed with
          | ok changed => cases hstep
          | error error =>
              obtain ⟨daemon, hdaemon, rfl⟩ := Option.map_eq_some_iff.mp hstep
              exact haccounted.loop _ (by simp) hdaemon
      | wait ms =>
          obtain rfl := Option.some.inj hstep
          exact haccounted.loop (.wait ms) (by simp) rfl
      | watch paths =>
          obtain rfl := Option.some.inj hstep
          exact haccounted.loop (.watch paths) (by simp) rfl
      | receive | command | wake =>
          obtain ⟨daemon, hdaemon, rfl⟩ := Option.map_eq_some_iff.mp hstep
          exact haccounted.loop _ (by simp) hdaemon

/-- In every regular run, when the poll finds nothing changed, some cycle that
planned from the server's revision or a later one has ended well. Without the
revisions of its own uploads, the same of the last one that someone else made. -/
theorem poll_hides_nothing {options : DaemonOptions} {now revision : Nat} {first : Option Nat}
    (hfirst : ∀ cached ∈ first, cached < revision)
    (hreach : Runs.Reaches step (Regular own) (start options now revision first) p)
    (hphase : p.daemon.phase = .polling) {saves : Bool}
    (hunchanged : (p.remoteChanged saves).1 = false) : p.PlannedFrom (p.latest own) := by
  have haccounted : Accounted own p :=
    hreach.invariant (.start hfirst) fun _ _ _ haccounted hregular hstep =>
      haccounted.step hregular hstep
  exact haccounted.planned_of_idle (by simp [hphase]) (remoteChanged_eq_false.mp hunchanged)

/-! ## A status check -/

instance (p : Polling) (revision : Nat) : Decidable (p.PlannedFrom revision) := by
  unfold PlannedFrom
  infer_instance

instance (p : Polling) (revision : Nat) : Decidable (p.InHand revision) :=
  match hphase : p.daemon.phase with
  | .cycling trigger =>
      decidable_of_iff
        ((∃ planned ∈ p.planned, revision ≤ planned) ∨
          p.planned = none ∧ Plans p.daemon trigger = true)
        ⟨fun hinhand => ⟨trigger, hphase, hinhand⟩, fun ⟨_, hother, hinhand⟩ =>
          LoopPhase.cycling.inj (hphase.symm.trans hother) ▸ hinhand⟩
  | .selecting => isFalse fun ⟨_, hother, _⟩ => by simp [hphase] at hother
  | .polling => isFalse fun ⟨_, hother, _⟩ => by simp [hphase] at hother

instance (own : Bool) (p : Polling) (step : PollingStep) : Decidable (p.Regular own step) := by
  unfold Regular Unseen Stranded
  split <;> infer_instance

/-- A cycle plans, and ends well after some steps of its own. -/
def goodCycle (steps : List PollingStep) : List PollingStep :=
  .plan true :: steps ++
    [.reread true, .loop (.finish (.ok ⟨[], [], [], [], none⟩) fun _ => none)]

/-- The next poll is due. -/
def untilPoll : List PollingStep :=
  [.loop (.wait 5000), .loop (.wake fun _ => none)]

/-- The poll finds what another device made; its cycle plans from it. -/
def foundByPoll : List PollingStep :=
  .loop (.command .syncNow) :: goodCycle [] ++ [.status true, .push false] ++ untilPoll ++
    .poll true :: goodCycle [] ++ untilPoll

/-- A cycle uploads. -/
def ownUpload : List PollingStep :=
  .loop (.command .syncNow) :: goodCycle [.push true] ++ untilPoll

/-- A status check fetches what another device made before a poll does. -/
def foundByStatus : List PollingStep :=
  .loop (.command .syncNow) :: goodCycle [] ++ [.push false, .status true] ++ untilPoll

/-- The state after a run from revision 5, with what its poll is about to answer. -/
theorem polls_unchanged (test : Polling → PollingStep → Bool) (steps : List PollingStep)
    (check : Polling → Bool)
    (hrun : (Runs.run step test (start {} 0 5 none) steps).any (fun p =>
      decide (p.daemon.phase = .polling) && !(p.remoteChanged true).1 && check p) = true) :
    ∃ p, Runs.run step test (start {} 0 5 none) steps = some p ∧ p.daemon.phase = .polling ∧
      (p.remoteChanged true).1 = false ∧ check p = true := by
  obtain ⟨p, hp, hfacts⟩ := (Option.any_eq_true _ _).mp hrun
  simp only [Bool.and_eq_true, decide_eq_true_eq, Bool.not_eq_true'] at hfacts
  exact ⟨p, hp, hfacts.1.1, hfacts.1.2, hfacts.2⟩

theorem foreign_change_is_found :
    (∃ p : Polling, p.daemon.phase = .polling ∧ (p.remoteChanged true).1 = false ∧
      p.revision = 6 ∧ p.PlannedFrom (p.latest true)) ∧
    ∃ p : Polling, p.daemon.phase = .polling ∧ (p.remoteChanged true).1 = false ∧
      p.revision = 6 ∧ p.PlannedFrom (p.latest false) := by
  have hnone : ∀ cached ∈ (none : Option Nat), cached < 5 := by simp
  constructor
  · obtain ⟨p, hp, hphase, hunchanged, hrevision⟩ :=
      polls_unchanged (fun p step => decide (p.Regular true step)) foundByPoll
        (fun p => p.revision == 6) (by decide +kernel)
    have hreach := Runs.Reaches.run (fun _ _ => of_decide_eq_true) .start hp
    exact ⟨p, hphase, hunchanged, eq_of_beq hrevision,
      poll_hides_nothing hnone hreach hphase hunchanged⟩
  · obtain ⟨p, hp, hphase, hunchanged, hrevision⟩ :=
      polls_unchanged (fun p step => decide (p.Regular false step)) ownUpload
        (fun p => p.revision == 6) (by decide +kernel)
    have hreach := Runs.Reaches.run (fun _ _ => of_decide_eq_true) .start hp
    exact ⟨p, hphase, hunchanged, eq_of_beq hrevision,
      poll_hides_nothing hnone hreach hphase hunchanged⟩

theorem status_check_hides_a_change :
    ¬∀ (options : DaemonOptions) (now revision : Nat) (first : Option Nat) (p : Polling)
      (saves : Bool), Runs.Reaches step Runs.anything (start options now revision first) p →
        p.daemon.phase = .polling → (p.remoteChanged saves).1 = false →
          p.PlannedFrom p.revision := by
  intro hall
  obtain ⟨p, hp, hphase, hunchanged, hunplanned⟩ :=
    polls_unchanged (fun _ _ => true) foundByStatus
      (fun p => !decide (p.PlannedFrom p.revision)) (by decide +kernel)
  have hplanned := hall {} 0 5 none p true (Runs.Reaches.run (fun _ _ _ => trivial) .start hp)
    hphase hunchanged
  simp [hplanned] at hunplanned

end Polling

end ObSink.Engine
