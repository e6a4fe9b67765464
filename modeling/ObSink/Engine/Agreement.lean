import ObSink.Engine.Devices
import ObSink.Engine.QuietCycle
import ObSink.Lib.Rota

/-! # Devices that come to agree

Any number of devices have their cycles one after the other, nothing failing and
nobody editing. Path by path this is a value with copies that are brought into
line in turn, so two rounds make all devices agree with the server, and what one
device alone has edited is what all of them end with.
-/

namespace ObSink.Engine

open Prog (Reaches exec execAll)

variable {ι : Type}

/-- The devices of a vault and its server, between cycles. -/
structure Gathering (ι : Type) where
  server : Server.State
  device : ι → Device

def Gathering.world (gathering : Gathering ι) (i : ι) : World :=
  ⟨gathering.device i, gathering.server⟩

/-- Every device is in good order with the server. -/
def Gathering.Sound (fleet : Fleet ι) (gathering : Gathering ι) : Prop :=
  ∀ i, Engine.Sound (fleet.context i) (gathering.world i)

/-- A whole cycle of one device; its user answers each conflict for one of the
sides. -/
def CycleOf [DecidableEq ι] (fleet : Fleet ι) (i : ι) (before after : Gathering ι) : Prop :=
  ∃ choose value later, Decisive choose ∧
    Reaches (Undisturbed (fleet.context i) choose false) (cycle fleet.crypto (fleet.ignore i))
      (before.world i) (.pure value) later ∧
    after = ⟨later.server, Function.update before.device i later.device⟩

/-- What the server and the devices have at a path. -/
def Gathering.replicas (fleet : Fleet ι) (path : String) (gathering : Gathering ι) :
    Replicas ι Version where
  centre := version (if Plain path then
    gathering.server.vault.files[fleet.crypto.pathToken path]? else none)
  copy := fun i => fileVersion fleet.crypto (gathering.device i).folder[path]?
  mark := fun i => version (gathering.device i).base[path]?

/-- The device does not leave the path out. -/
def Fleet.Follows (fleet : Fleet ι) (path : String) (i : ι) : Prop :=
  (fleet.ignore i).isIgnored path = false

theorem goal_eq (fleet : Fleet ι) (choose : String → ConflictResolutionChoice) (path : String)
    (gathering : Gathering ι) (i : ι) :
    ((gathering.world i).view (fleet.context i) path).goal (fleet.context i) choose path =
      settle ((fleet.ignore i).isIgnored path)
        ((gathering.world i).view (fleet.context i) path).tooLarge (choose path)
        ⟨(gathering.replicas fleet path).copy i, (gathering.replicas fleet path).centre,
          (gathering.replicas fleet path).mark i⟩ := rfl

/-! ## The server meanwhile -/

/-- What another device's cycle does to the server, as far as good order goes. -/
structure Hosts (before after : Server.State) : Prop extends Proceeds before after where
  id : after.vault.id = before.vault.id
  members : after.vault.members = before.vault.members

theorem Hosts.refl (server : Server.State) : Hosts server server :=
  ⟨.refl _, rfl, rfl⟩

theorem Hosts.trans {first second third : Server.State} (hfirst : Hosts first second)
    (hsecond : Hosts second third) : Hosts first third :=
  ⟨hfirst.toProceeds.trans hsecond.toProceeds, hsecond.id.trans hfirst.id,
    hsecond.members.trans hfirst.members⟩

theorem hosts_serve (config : Server.Config) (call : Server.Call) (server : Server.State) :
    Hosts server (call.serve config server).2 := by
  refine ⟨proceeds_serve config call server, ?_, ?_⟩
  all_goals rcases Server.serve_vault config call server with ⟨entry, _, hvault⟩ | ⟨_, hvault⟩
  all_goals simp [hvault, Server.Vault.upsertEntry]

theorem hosts_handle (context : Context) (env : Env) (effect : Effect) (world : World) :
    Hosts world.server (handle context env effect world).2.server := by
  by_cases hop : ∃ op, effect = .applyOp op
  · obtain ⟨op, rfl⟩ := hop
    exact hosts_serve _ _ _
  · rw [handle_server context env (fun op heq => hop ⟨op, heq⟩) world]
    exact .refl _

theorem hosts_reaches {α : Type} {context : Context} {choose : String → ConflictResolutionChoice}
    {sizes : Bool} {prog rest : Eff α} {before after : World}
    (hreaches : Reaches (Undisturbed context choose sizes) prog before rest after) :
    Hosts before.server after.server := by
  induction hreaches with
  | refl => exact .refl _
  | @act effect _ world middle _ _ _ hperform _ ih =>
      obtain ⟨⟨⟨env, -, hhandle⟩, -⟩, -⟩ := hperform
      have hstep := hosts_handle context env effect world
      rw [hhandle] at hstep
      exact hstep.trans ih

/-- A device stays in good order when another one's cycle leaves the server in
good order. -/
theorem Sound.meanwhile {fleet : Fleet ι} {i j : ι} {device device' : Device}
    {server server' : Server.State} (hsound : Sound (fleet.context j) ⟨device, server⟩)
    (hother : Sound (fleet.context i) ⟨device', server'⟩) (hhosts : Hosts server server') :
    Sound (fleet.context j) ⟨device, server'⟩ := by
  intro path
  refine ⟨?_, (hother path).noStrays, ?_, (hsound path).named, ?_⟩
  · have hmember := (hsound path).member
    unfold Server.requireMember at hmember ⊢
    rwa [hhosts.id, hhosts.members]
  · intro entry hentry
    obtain ⟨hdecrypts, hencPath, htoken, hhashed⟩ := (hother path).row entry hentry
    exact ⟨hdecrypts, hencPath, htoken, hhashed⟩
  · intro cache etag hcache hetag
    obtain ⟨revision, heq, hle, hmirror⟩ := (hsound path).cached cache etag hcache hetag
    refine ⟨revision, heq, hle.trans hhosts.revision, ?_⟩
    intro hcurrent
    have hsame : revision = server.vault.revision :=
      le_antisymm hle (hcurrent ▸ hhosts.revision)
    have hfiles := hhosts.files (hcurrent.symm.trans hsame)
    rw [hmirror hsame]
    unfold remoteAt
    rw [hfiles]

/-! ## A cycle is a turn -/

theorem settle_ignored {tooLarge : Bool} {choice : ConflictResolutionChoice} {found : Versions} :
    (settle true tooLarge choice found).server = found.server := rfl

/-- A version that has not changed in the folder gives way to the server's. -/
theorem settle_pulled {tooLarge : Bool} {choice : ConflictResolutionChoice} {found : Versions}
    (hsame : found.folder = found.base) :
    (settle false tooLarge choice found).server = found.server := by
  simp [settle, hsame, Versions.all]

/-- A version that has not changed on the server gives way to the folder's. -/
theorem settle_pushed {tooLarge : Bool} {choice : ConflictResolutionChoice} {found : Versions}
    (hsame : found.server = found.base) {level : Version}
    (hlevel : settle false tooLarge choice found = .all level) :
    (settle false tooLarge choice found).server = found.folder := by
  unfold settle at hlevel ⊢
  simp only [Bool.false_eq_true, if_false, hsame, or_self, true_or, if_true] at hlevel ⊢
  split at hlevel
  next heq => simp [heq, Versions.all]
  next hne =>
    rw [if_neg hne]
    split at hlevel
    next =>
      obtain ⟨folder, server, base⟩ := found
      obtain ⟨rfl, rfl, rfl⟩ := Versions.mk.inj hlevel
      exact absurd rfl hne
    next htooLarge => simp [htooLarge, Versions.all]

variable [DecidableEq ι] {fleet : Fleet ι}

theorem turn_of_cycle (hideal : ∀ i, (fleet.context i).Ideal) {i : ι} {before after : Gathering ι}
    (hsound : before.Sound fleet) (hcycle : CycleOf fleet i before after) :
    after.Sound fleet ∧ ∀ path, Replicas.Turn (fleet.Follows path) i (before.replicas fleet path)
      (after.replicas fleet path) := by
  obtain ⟨choose, value, later, hchoose, hreaches, rfl⟩ := hcycle
  have hhosts := hosts_reaches hreaches
  have hholds := @holds_cycle (fleet.context i) choose false
    (fun path => ((before.world i).view (fleet.context i) path).goal (fleet.context i) choose path)
    (hideal i) hchoose (before.world i) (hsound i) fun _ => rfl
  obtain ⟨plan, result, rfl, -, hdone⟩ := hholds.reaches (fun _ => rfl) hreaches
  refine ⟨?_, ?_⟩
  · intro j
    by_cases heq : j = i
    · subst heq
      simpa [Gathering.world] using hdone.sound
    · simpa [Gathering.world, heq] using Sound.meanwhile (hsound j) hdone.sound hhosts
  · intro path
    let finish := Gathering.replicas fleet path
      ⟨later.server, Function.update before.device i later.device⟩
    have hversions : (⟨finish.copy i, finish.centre, finish.mark i⟩ : Versions) =
        ((before.world i).view (fleet.context i) path).goal (fleet.context i) choose path := by
      simp only [finish, Gathering.replicas, Function.update_self]
      exact hdone.versions path
    have hcentre := congrArg Versions.server hversions
    rw [goal_eq] at hcentre
    refine ⟨?_, ?_, ?_, ?_, ?_⟩
    · intro j hne
      simp [Gathering.replicas, hne]
    · intro hfollows
      obtain ⟨level, hlevel⟩ := hdone.level rfl path hfollows
      obtain ⟨hcopy, hserver, hmark⟩ := Versions.mk.inj (hversions.trans hlevel)
      exact ⟨hcopy.trans hserver.symm, hmark.trans hserver.symm⟩
    · intro hfollows hsame
      rw [hfollows] at hcentre
      exact hcentre.trans (settle_pulled hsame)
    · intro hfollows hsame
      obtain ⟨level, hlevel⟩ := hdone.level rfl path hfollows
      rw [goal_eq, hfollows] at hlevel
      rw [hfollows] at hcentre
      exact hcentre.trans (settle_pushed hsame hlevel)
    · intro hignores
      rw [Fleet.Follows, Bool.not_eq_false] at hignores
      rw [hignores] at hcentre
      exact hcentre.trans settle_ignored

/-- Seen from one path, cycles one after the other are turns. -/
theorem turns_of_cycles (hideal : ∀ i, (fleet.context i).Ideal) {order : List ι}
    {before after : Gathering ι} (hsound : before.Sound fleet)
    (hcycles : Rota (CycleOf fleet) order before after) (path : String) :
    after.Sound fleet ∧ Rota (Replicas.Turn (fleet.Follows path)) order
      (before.replicas fleet path) (after.replicas fleet path) :=
  hcycles.map (fun _ _ _ hsound hcycle =>
    (turn_of_cycle hideal hsound hcycle).imp_right fun hturns => hturns path) hsound

/-! ## Two rounds -/

/-- When every device has had its cycle twice, however often and in whatever order
between, each of them has at every path it follows what the server has, in its
folder and in its base, and that is what the server had after the first round. -/
theorem two_rounds_agree (hideal : ∀ i, (fleet.context i).Ideal) {first second : List ι}
    (hfirst : ∀ i, i ∈ first) (hsecond : ∀ i, i ∈ second) {start middle finish : Gathering ι}
    (hsound : start.Sound fleet) (hstart : Rota (CycleOf fleet) first start middle)
    (hfinish : Rota (CycleOf fleet) second middle finish) {path : String} {i : ι}
    (hfollows : fleet.Follows path i) :
    (finish.replicas fleet path).centre = (middle.replicas fleet path).centre ∧
      (finish.replicas fleet path).Level i := by
  obtain ⟨hmiddle, hturns⟩ := turns_of_cycles hideal hsound hstart path
  exact Replicas.level_of_rounds (fun i _ => hfirst i) (fun i _ => hsecond i) hturns
    (turns_of_cycles hideal hmiddle hfinish path).2 hfollows

/-- A path at which only one device differs from the server and from its base ends
on every device as that one has it. -/
theorem lone_edit_reaches_all (hideal : ∀ i, (fleet.context i).Ideal) {first second : List ι}
    (hfirst : ∀ i, i ∈ first) (hsecond : ∀ i, i ∈ second) {start middle finish : Gathering ι}
    (hsound : start.Sound fleet) (hstart : Rota (CycleOf fleet) first start middle)
    (hfinish : Rota (CycleOf fleet) second middle finish) {path : String} {editor i : ι}
    (hlone : Replicas.Lone (fleet.Follows path) editor (start.replicas fleet path))
    (hfollows : fleet.Follows path i) :
    (finish.replicas fleet path).copy i = (start.replicas fleet path).copy editor := by
  obtain ⟨-, hturns⟩ := turns_of_cycles hideal hsound hstart path
  obtain ⟨hcentre, hcopy, -⟩ :=
    two_rounds_agree hideal hfirst hsecond hsound hstart hfinish hfollows
  rw [hcopy, hcentre]
  exact Replicas.centre_of_lone hlone (fun i _ => hfirst i) hturns

/-! ## Two devices, one with a new file -/

def pairFleet : Fleet Bool := ⟨.sample, Server.sampleConfig, fun _ => "user_1", fun _ => .defaults⟩

def pairStart : Gathering Bool where
  server := sampleWorld.server
  device := fun i => if i then sampleWorld.device else emptyWorld.device

def cycleRun (i : Bool) (gathering : Gathering Bool) :
    Eff (Except SyncEngineError (SyncPlan × SyncResult)) × World :=
  exec (handle (pairFleet.context i)) (cycle .sample .defaults) (List.replicate 20 {})
    (gathering.world i)

def afterCycle (i : Bool) (gathering : Gathering Bool) : Gathering Bool where
  server := (cycleRun i gathering).2.server
  device := Function.update gathering.device i (cycleRun i gathering).2.device

def cycleChecks (i : Bool) (gathering : Gathering Bool) : Bool :=
  (cycleRun i gathering).1.result?.isSome &&
    execAll (handle (pairFleet.context i))
      (undisturbedHere (pairFleet.context i) (fun _ => .keepLocal) false) (cycle .sample .defaults)
      (List.replicate 20 {}) (gathering.world i)

theorem cycleOf_afterCycle {i : Bool} {gathering : Gathering Bool}
    (hchecks : cycleChecks i gathering = true) :
    CycleOf pairFleet i gathering (afterCycle i gathering) := by
  simp only [cycleChecks, Bool.and_eq_true] at hchecks
  obtain ⟨value, hvalue⟩ := Option.isSome_iff_exists.mp hchecks.1
  exact ⟨fun _ => .keepLocal, value, _, fun _ => .inl rfl,
    Prog.exec_reaches_pure undisturbed_of_check hchecks.2 hvalue, rfl⟩

/-- Both devices after one round. -/
def pairMiddle : Gathering Bool := afterCycle false (afterCycle true pairStart)

theorem pair_ideal (i : Bool) : (pairFleet.context i).Ideal := sampleContext_ideal

theorem pair_follows (i : Bool) : pairFleet.Follows "note" i := by
  change IgnoreRules.defaults.isIgnored "note" = false
  decide

theorem pairStart_sound : pairStart.Sound pairFleet := by
  intro i
  cases i with
  | false => exact emptyWorld_sound rfl
  | true => exact sampleWorld_sound

theorem pair_first : Rota (CycleOf pairFleet) [true, false] pairStart pairMiddle :=
  ⟨_, cycleOf_afterCycle (by decide +kernel), _, cycleOf_afterCycle (by decide +kernel), rfl⟩

theorem pair_second : Rota (CycleOf pairFleet) [true, false] pairMiddle
    (afterCycle false (afterCycle true pairMiddle)) :=
  ⟨_, cycleOf_afterCycle (by decide +kernel), _, cycleOf_afterCycle (by decide +kernel), rfl⟩

theorem pair_agrees_in_sample :
    ∃ finish, Rota (CycleOf pairFleet) ([true, false] ++ [true, false]) pairStart finish ∧
      ∀ i, (finish.replicas pairFleet "note").Level i :=
  ⟨_, pair_first.trans pair_second, fun i =>
    (two_rounds_agree pair_ideal (by decide) (by decide) pairStart_sound pair_first pair_second
      (pair_follows i)).2⟩

theorem edit_reaches_other_in_sample :
    ∃ finish, Rota (CycleOf pairFleet) ([true, false] ++ [true, false]) pairStart finish ∧
      (finish.replicas pairFleet "note").copy false =
        .present (Crypto.sample.contentHmac [104, 105]) := by
  have hlone : Replicas.Lone (pairFleet.Follows "note") true
      (pairStart.replicas pairFleet "note") := by
    refine ⟨pair_follows true, by decide +kernel, ?_⟩
    intro j hne _
    obtain rfl : j = false := by simpa using hne
    exact ⟨by decide +kernel, by decide +kernel⟩
  refine ⟨_, pair_first.trans pair_second, ?_⟩
  rw [lone_edit_reaches_all pair_ideal (by decide) (by decide) pairStart_sound
    pair_first pair_second hlone (pair_follows false)]
  decide +kernel

end ObSink.Engine
