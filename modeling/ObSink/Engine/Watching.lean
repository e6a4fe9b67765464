import ObSink.Engine.RunDaemon

/-! # Local edits and the daemon

What becomes of the watcher's events. The loop hands the paths of its debouncer
to a cycle whose end it does not know yet, and for a while it takes events on
paths that the last cycle wrote for its own. As long as neither meets an edit, a
loop that is idle has brought every edit to a cycle that went well.
-/

namespace ObSink.Engine

/-- A run of the daemon, with the watcher's events so far and whether the user had
changed their paths. `began` is the number of events when the present or last
cycle began, `taken` what the debouncer let go for it; `ended` has every cycle
that came to an end. -/
structure Watch where
  daemon : Daemon
  events : List (String × Bool) := []
  began : Nat := 0
  taken : List String := []
  ended : List (Nat × CycleOutcome) := []

inductive WatchStep where
  | watch (batch : List (String × Bool))
  | loop (step : DaemonStep)

namespace Watch

def start (options : DaemonOptions) (now : Nat) : Watch := { daemon := .start options now }

/-- A step of the loop, noted. -/
def note (w : Watch) (step : DaemonStep) (daemon : Daemon) : Watch :=
  match step, daemon.phase with
  | .finish outcome _, _ => { w with daemon, ended := w.ended ++ [(w.began, outcome)] }
  | .wake _, .cycling _ =>
      { w with daemon, began := w.events.length, taken := w.daemon.debouncer.pending.keys }
  | .command _, _ | .polled _, .cycling _ =>
      { w with daemon, began := w.events.length, taken := [] }
  | _, _ => { w with daemon }

def step (w : Watch) : WatchStep → Option Watch
  | .watch batch =>
      (w.daemon.step (.watch (batch.map Prod.fst))).map fun daemon =>
        { w with daemon, events := w.events ++ batch }
  | .loop (.watch _) => none
  | .loop step => (w.daemon.step step).map (w.note step)

end Watch

/-! ## What is promised -/

/-- A cycle that ended without a fatal failure, a checkpoint error or a failure on
a path. -/
def CleanFor (path : String) : CycleOutcome → Prop
  | .ok result => (∀ failure ∈ result.failures, failure.fatal = false ∧ failure.path ≠ path) ∧
      result.checkpointError = none
  | .error _ => False

instance (path : String) (outcome : CycleOutcome) : Decidable (CleanFor path outcome) :=
  match outcome with
  | .ok _ => inferInstanceAs (Decidable (_ ∧ _))
  | .error _ => inferInstanceAs (Decidable False)

namespace Watch

/-- A cycle that started after an event on a path has ended well for it. -/
def Followed (w : Watch) (index : Nat) (path : String) : Prop :=
  ∃ cycle ∈ w.ended, index < cycle.1 ∧ CleanFor path cycle.2

/-- An edit of a path has not been followed yet. -/
def Waiting (w : Watch) (path : String) : Prop :=
  ∃ index, w.events[index]? = some (path, true) ∧ ¬w.Followed index path

/-- No cycle, no suppression, nothing pending and nothing queued. -/
def Idle (w : Watch) : Prop :=
  w.daemon.phase = .selecting ∧ (∀ resumes ∈ w.daemon.suppressedUntil, resumes ≤ w.daemon.clock) ∧
    w.daemon.debouncer.isEmpty = true ∧ w.daemon.channel = []

/-- What the debouncer let go goes through, as far as it was edited, and no edit
is taken for a self-write unless its path is pending or comes again. -/
def Careful (w : Watch) : WatchStep → Prop
  | .loop (.receive _) => ∀ paths rest, w.daemon.channel = paths :: rest → ∀ path ∈ paths,
      w.daemon.isSelfWrite path = true → w.Waiting path →
        path ∈ w.daemon.debouncer.pending ∨ path ∈ rest.flatten
  | .loop (.finish outcome _) =>
      (w.daemon.phase = .cycling .debounced → ∀ path ∈ w.taken, w.Waiting path →
        CleanFor path outcome) ∧
      ∀ path ∈ w.daemon.channel.flatten, (w.daemon.noteOutcome outcome).isSelfWrite path = true →
        Waiting { w with ended := w.ended ++ [(w.began, outcome)] } path →
          path ∈ w.daemon.debouncer.pending
  | _ => True

/-- Where an edit is that has not been followed: pending, queued, or with the
cycle that runs. -/
def Kept (w : Watch) : Prop :=
  ∀ index path, w.events[index]? = some (path, true) → ¬w.Followed index path →
    path ∈ w.daemon.debouncer.pending ∨ path ∈ w.daemon.channel.flatten ∨
      w.daemon.phase = .cycling .debounced ∧ path ∈ w.taken ∧ index < w.began

end Watch

/-! ## What a step does to the debouncer -/

namespace Daemon

theorem mem_pending_observe {daemon : Daemon} {stat : String → Option Stat} {paths : List String}
    {path : String} :
    path ∈ (daemon.observe stat paths).debouncer.pending ↔
      path ∈ daemon.debouncer.pending ∨ path ∈ paths ∧ daemon.isSelfWrite path = false := by
  unfold observe
  dsimp only
  generalize daemon.debouncer = debouncer
  induction paths generalizing debouncer with
  | nil => simp
  | cons head rest ih =>
      rw [List.foldl_cons, ih]
      cases hself : daemon.isSelfWrite head with
      | true =>
          simp only [if_true, List.mem_cons]
          constructor
          · rintro (hmem | ⟨hmem, hother⟩)
            · exact .inl hmem
            · exact .inr ⟨.inr hmem, hother⟩
          · rintro (hmem | ⟨rfl | hmem, hother⟩)
            · exact .inl hmem
            · rw [hself] at hother
              cases hother
            · exact .inr ⟨hmem, hother⟩
      | false =>
          simp only [Bool.false_eq_true, if_false, Debouncer.mem_observe, List.mem_cons]
          constructor
          · rintro ((rfl | hmem) | ⟨hmem, hother⟩)
            · exact .inr ⟨.inl rfl, hself⟩
            · exact .inl hmem
            · exact .inr ⟨.inr hmem, hother⟩
          · rintro (hmem | ⟨rfl | hmem, hother⟩)
            · exact .inl (.inr hmem)
            · exact .inl (.inl rfl)
            · exact .inr ⟨hmem, hother⟩

theorem reportFailure_same (daemon : Daemon) (fatal : Bool) :
    (daemon.reportFailure fatal).debouncer = daemon.debouncer ∧
      (daemon.reportFailure fatal).channel = daemon.channel := by
  unfold reportFailure
  split <;> exact ⟨rfl, rfl⟩

theorem noteOutcome_same (daemon : Daemon) (outcome : CycleOutcome) :
    (daemon.noteOutcome outcome).debouncer = daemon.debouncer ∧
      (daemon.noteOutcome outcome).channel = daemon.channel := by
  cases outcome with
  | error error => exact daemon.reportFailure_same _
  | ok result =>
      unfold noteOutcome
      dsimp only
      split
      · exact daemon.reportFailure_same true
      · exact ⟨rfl, rfl⟩

theorem noteActivity_same (daemon : Daemon) (trigger : Trigger) (outcome : CycleOutcome) :
    (daemon.noteActivity trigger outcome).debouncer = daemon.debouncer ∧
      (daemon.noteActivity trigger outcome).channel = daemon.channel ∧
        (daemon.noteActivity trigger outcome).isSelfWrite = daemon.isSelfWrite := by
  unfold noteActivity
  split <;> exact ⟨rfl, rfl, rfl⟩

/-- The sleep ends with a cycle for what was pending, or all of it stays pending. -/
theorem wake_cases (daemon : Daemon) (stat : String → Option Stat) :
    (daemon.wake stat).channel = daemon.channel ∧
      ((daemon.wake stat).phase = .cycling .debounced ∨
        (daemon.wake stat).phase ∈ [LoopPhase.selecting, .polling] ∧
          ∀ path, path ∈ (daemon.wake stat).debouncer.pending ↔
            path ∈ daemon.debouncer.pending) := by
  unfold wake
  split
  next => exact ⟨rfl, .inr ⟨by simp [loop], fun _ => Iff.rfl⟩⟩
  next =>
    dsimp only
    rcases daemon.debouncer.due_takes_or_keeps daemon.clock stat with htaken | ⟨hnone, hsame⟩
    · rw [htaken]
      exact ⟨rfl, .inl rfl⟩
    · split
      next hdue =>
        rw [hdue] at hnone
        cases hnone
      next hdue =>
        rw [hdue] at hsame
        split
        · exact ⟨rfl, .inr ⟨by simp, hsame⟩⟩
        · exact ⟨rfl, .inr ⟨by simp [loop], hsame⟩⟩

end Daemon

/-! ## Every careful run -/

namespace Watch

variable {w next : Watch}

theorem Kept.watch (hkept : w.Kept) {batch : List (String × Bool)}
    (hstep : w.step (.watch batch) = some next) : next.Kept := by
  obtain rfl := Option.some.inj hstep
  intro index path hevent hwaits
  dsimp only at hevent
  rw [List.getElem?_append] at hevent
  split at hevent
  · rcases hkept index path hevent hwaits with hpending | hqueued | hrunning
    · exact .inl hpending
    · exact .inr (.inl (by simp [hqueued]))
    · exact .inr (.inr hrunning)
  · have hmem : (path, true) ∈ batch := List.mem_of_getElem? hevent
    refine .inr (.inl ?_)
    rw [List.flatten_append, List.mem_append]
    exact .inr (by simp [hmem])

theorem Kept.receive (hkept : w.Kept) {stat : String → Option Stat}
    (hcareful : w.Careful (.loop (.receive stat)))
    (hstep : w.step (.loop (.receive stat)) = some next) : next.Kept := by
  obtain ⟨daemon, hdaemon, rfl⟩ := Option.map_eq_some_iff.mp hstep
  simp only [Daemon.step] at hdaemon
  split at hdaemon
  next paths rest hphase hchannel =>
    obtain rfl := Option.some.inj hdaemon
    intro index path hevent hwaits
    have hcases := hkept index path hevent hwaits
    rw [hchannel, hphase, List.flatten_cons, List.mem_append] at hcases
    rcases hcases with hpending | (hhead | hrest) | ⟨hcycling, -⟩
    · exact .inl (Daemon.mem_pending_observe.mpr (.inl hpending))
    · cases hself : w.daemon.isSelfWrite path with
      | false => exact .inl (Daemon.mem_pending_observe.mpr (.inr ⟨hhead, hself⟩))
      | true =>
          rcases hcareful paths rest hchannel path hhead hself ⟨index, hevent, hwaits⟩ with
            hpending | hlater
          · exact .inl (Daemon.mem_pending_observe.mpr (.inl hpending))
          · exact .inr (.inl hlater)
    · exact .inr (.inl hrest)
    · cases hcycling
  next => cases hdaemon

theorem Kept.command (hkept : w.Kept) {command : DaemonCommand}
    (hstep : w.step (.loop (.command command)) = some next) : next.Kept := by
  obtain ⟨daemon, hdaemon, rfl⟩ := Option.map_eq_some_iff.mp hstep
  simp only [Daemon.step] at hdaemon
  split at hdaemon
  next hphase =>
    obtain rfl := Option.some.inj hdaemon
    intro index path hevent hwaits
    have hcases := hkept index path hevent hwaits
    rw [hphase] at hcases
    rcases hcases with hpending | hqueued | ⟨hcycling, -⟩
    · exact .inl hpending
    · exact .inr (.inl hqueued)
    · cases hcycling
  next => cases hdaemon

theorem Kept.wake (hkept : w.Kept) {stat : String → Option Stat}
    (hstep : w.step (.loop (.wake stat)) = some next) : next.Kept := by
  obtain ⟨daemon, hdaemon, rfl⟩ := Option.map_eq_some_iff.mp hstep
  simp only [Daemon.step] at hdaemon
  split at hdaemon
  next hselecting =>
    obtain rfl := Option.some.inj hdaemon
    obtain ⟨hchannel, hwake⟩ := w.daemon.wake_cases stat
    rcases hwake with hcycling | ⟨hphase, hsame⟩
    · -- what was pending is with the cycle that begins
      simp only [note, hcycling]
      intro index path hevent hwaits
      have hcases := hkept index path hevent hwaits
      rw [hselecting.1] at hcases
      rcases hcases with hpending | hqueued | ⟨hrunning, -⟩
      · obtain ⟨hindex, -⟩ := List.getElem?_eq_some_iff.mp hevent
        exact .inr (.inr ⟨hcycling, Std.ExtTreeMap.mem_keys.mpr hpending, hindex⟩)
      · exact .inr (.inl (hchannel ▸ hqueued))
      · cases hrunning
    · have hnote :
          w.note (.wake stat) (w.daemon.wake stat) = { w with daemon := w.daemon.wake stat } := by
        simp only [List.mem_cons, List.not_mem_nil, or_false] at hphase
        rcases hphase with hphase | hphase <;> simp only [note, hphase]
      rw [hnote]
      intro index path hevent hwaits
      have hcases := hkept index path hevent hwaits
      rw [hselecting.1] at hcases
      rcases hcases with hpending | hqueued | ⟨hrunning, -⟩
      · exact .inl ((hsame path).mpr hpending)
      · exact .inr (.inl (hchannel ▸ hqueued))
      · cases hrunning
  next => cases hdaemon

theorem Kept.polled (hkept : w.Kept) {changed : Except SyncEngineError Bool}
    (hstep : w.step (.loop (.polled changed)) = some next) : next.Kept := by
  obtain ⟨daemon, hdaemon, rfl⟩ := Option.map_eq_some_iff.mp hstep
  simp only [Daemon.step] at hdaemon
  split at hdaemon
  next hphase =>
    have hcases : ∀ index path, w.events[index]? = some (path, true) → ¬w.Followed index path →
        path ∈ w.daemon.debouncer.pending ∨ path ∈ w.daemon.channel.flatten := by
      intro index path hevent hwaits
      have hcases := hkept index path hevent hwaits
      rw [hphase] at hcases
      rcases hcases with hpending | hqueued | ⟨hcycling, -⟩
      · exact .inl hpending
      · exact .inr hqueued
      · cases hcycling
    split at hdaemon
    next =>
      obtain rfl := Option.some.inj hdaemon
      intro index path hevent hwaits
      exact (hcases index path hevent hwaits).imp_right .inl
    next =>
      obtain rfl := Option.some.inj hdaemon
      intro index path hevent hwaits
      exact (hcases index path hevent hwaits).imp_right .inl
    next error =>
      obtain rfl := Option.some.inj hdaemon
      obtain ⟨hdebouncer, hchannel⟩ := w.daemon.reportFailure_same (isFatalSyncError error)
      intro index path hevent hwaits
      rcases hcases index path hevent hwaits with hpending | hqueued
      · refine .inl ?_
        change path ∈ (w.daemon.reportFailure (isFatalSyncError error)).debouncer.pending
        rwa [hdebouncer]
      · refine .inr (.inl ?_)
        change path ∈ (w.daemon.reportFailure (isFatalSyncError error)).channel.flatten
        rwa [hchannel]
  next => cases hdaemon

theorem Followed.later {index : Nat} {path : String} (hfollowed : w.Followed index path)
    (cycle : Nat × CycleOutcome) : Followed { w with ended := w.ended ++ [cycle] } index path := by
  obtain ⟨earlier, hearlier, hends⟩ := hfollowed
  exact ⟨earlier, List.mem_append_left _ hearlier, hends⟩

theorem Kept.finish (hkept : w.Kept) {outcome : CycleOutcome} {stat : String → Option Stat}
    (hcareful : w.Careful (.loop (.finish outcome stat)))
    (hstep : w.step (.loop (.finish outcome stat)) = some next) : next.Kept := by
  obtain ⟨daemon, hdaemon, rfl⟩ := Option.map_eq_some_iff.mp hstep
  obtain ⟨htaken, hdropped⟩ := hcareful
  simp only [Daemon.step] at hdaemon
  split at hdaemon
  next trigger hphase =>
    obtain rfl := Option.some.inj hdaemon
    obtain ⟨hdebouncer, hchannel⟩ := w.daemon.noteOutcome_same outcome
    obtain ⟨hdebouncer', hchannel', hself⟩ :=
      (w.daemon.noteOutcome outcome).noteActivity_same trigger outcome
    intro index path hevent hwaits
    refine .inl (Daemon.mem_pending_observe.mpr ?_)
    rw [hdebouncer', hdebouncer, hchannel', hchannel, hself]
    have hbefore : ¬w.Followed index path := fun hfollowed => hwaits (hfollowed.later _)
    rcases hkept index path hevent hbefore with hpending | hqueued | ⟨hcycling, hmem, hindex⟩
    · exact .inl hpending
    · cases hdrops : (w.daemon.noteOutcome outcome).isSelfWrite path with
      | false => exact .inr ⟨hqueued, rfl⟩
      | true => exact .inl (hdropped path hqueued hdrops ⟨index, hevent, hwaits⟩)
    · -- the cycle that ends is the one that was to bring it to the server
      refine absurd ?_ hwaits
      exact ⟨(w.began, outcome), List.mem_append_right _ (List.mem_singleton_self _), hindex,
        htaken hcycling path hmem ⟨index, hevent, hbefore⟩⟩
  next => cases hdaemon

theorem Kept.step (hkept : w.Kept) {step : WatchStep} (hcareful : w.Careful step)
    (hstep : w.step step = some next) : next.Kept := by
  cases step with
  | watch batch => exact hkept.watch hstep
  | loop step =>
      cases step with
      | wait ms =>
          obtain rfl := Option.some.inj hstep
          exact hkept
      | watch paths => cases hstep
      | receive stat => exact hkept.receive hcareful hstep
      | command command => exact hkept.command hstep
      | wake stat => exact hkept.wake hstep
      | polled changed => exact hkept.polled hstep
      | finish outcome stat => exact hkept.finish hcareful hstep

/-- In every careful run, when the loop is idle every edit has been followed by a
cycle that went well for it. -/
theorem edits_are_followed {options : DaemonOptions} {now : Nat}
    (hreach : Runs.Reaches step Careful (start options now) w) (hidle : w.Idle) {index : Nat}
    {path : String} (hevent : w.events[index]? = some (path, true)) : w.Followed index path := by
  have hkept : w.Kept := by
    refine hreach.invariant ?_ fun _ _ _ hkept hcareful hstep => hkept.step hcareful hstep
    intro index path hevent
    simp [start] at hevent
  obtain ⟨hphase, -, hempty, hchannel⟩ := hidle
  by_contra hwaits
  rcases hkept index path hevent hwaits with hpending | hqueued | ⟨hcycling, -⟩
  · rw [Debouncer.isEmpty, Std.ExtTreeMap.isEmpty_iff] at hempty
    rw [hempty] at hpending
    exact Std.ExtTreeMap.not_mem_empty hpending
  · rw [hchannel] at hqueued
    cases hqueued
  · rw [hphase] at hcycling
    cases hcycling

/-! ## Two runs -/

/-- A sufficient check for `Careful`: no event is taken for a self-write, and the
cycle ends well for what it took. -/
def careful (w : Watch) : WatchStep → Bool
  | .loop (.receive _) =>
      (w.daemon.channel.head?.getD []).all fun path => !w.daemon.isSelfWrite path
  | .loop (.finish outcome _) =>
      (w.taken.all fun path => CleanFor path outcome) &&
        w.daemon.channel.flatten.all fun path => !(w.daemon.noteOutcome outcome).isSelfWrite path
  | _ => true

theorem careful_sound (w : Watch) (step : WatchStep) (hcheck : w.careful step = true) :
    w.Careful step := by
  cases step with
  | watch batch => trivial
  | loop step =>
      cases step with
      | receive stat =>
          intro paths rest hchannel path hmem hself
          simp only [careful, hchannel, List.head?_cons, Option.getD_some, List.all_eq_true,
            Bool.not_eq_true'] at hcheck
          rw [hcheck path hmem] at hself
          cases hself
      | finish outcome stat =>
          simp only [careful, Bool.and_eq_true, List.all_eq_true, decide_eq_true_eq,
            Bool.not_eq_true'] at hcheck
          refine ⟨fun _ path hmem _ => hcheck.1 path hmem, fun path hmem hself => ?_⟩
          rw [hcheck.2 path hmem] at hself
          cases hself
      | _ => trivial

/-- Nothing to do with the files. -/
def noStat : String → Option Stat := fun _ => none

def cleanResult : SyncResult := ⟨[], [], [], [], none⟩

/-- A note is edited; the debouncer lets it go, and the cycle ends well. -/
def editedNote : List WatchStep :=
  [.watch [("note.md", true)], .loop (.receive noStat), .loop (.wait 750), .loop (.wake noStat),
    .loop (.wait 100), .loop (.finish (.ok cleanResult) noStat)]

theorem edited_note_is_followed :
    ∃ w : Watch, w.Idle ∧ w.events[0]? = some ("note.md", true) ∧ w.Followed 0 "note.md" := by
  have hrun : (Runs.run step careful (start {} 0) editedNote).any (fun w =>
      decide (w.daemon.phase = .selecting) && w.daemon.suppressedUntil.isNone &&
        w.daemon.debouncer.isEmpty && w.daemon.channel.isEmpty &&
          decide (w.events[0]? = some ("note.md", true))) = true := by
    decide +kernel
  obtain ⟨w, hw, hfacts⟩ := (Option.any_eq_true _ _).mp hrun
  simp only [Bool.and_eq_true, decide_eq_true_eq, Option.isNone_iff_eq_none,
    List.isEmpty_iff] at hfacts
  obtain ⟨⟨⟨⟨hphase, hfree⟩, hempty⟩, hchannel⟩, hevent⟩ := hfacts
  have hidle : w.Idle := ⟨hphase, by simp [hfree], hempty, hchannel⟩
  refine ⟨w, hidle, hevent, @edits_are_followed w {} 0 ?_ hidle 0 _ hevent⟩
  exact Runs.Reaches.run careful_sound .start hw

/-- A cycle downloads a note, and a second later the user edits it. -/
def editedAfterDownload : List WatchStep :=
  let download : SyncAction := ⟨"note.md", .download, none, some { hash := "theirs" }⟩
  [.loop (.command .syncNow),
    .loop (.finish (.ok { cleanResult with download := [download] }) noStat),
    .loop (.wait 1000), .watch [("note.md", true)], .loop (.receive noStat)]

theorem edit_after_download_is_dropped :
    ¬∀ (options : DaemonOptions) (now : Nat) (w : Watch),
      Runs.Reaches step Runs.anything (start options now) w → w.Idle →
        ∀ index path, w.events[index]? = some (path, true) → w.Followed index path := by
  intro hall
  have hrun : (Runs.run step (fun _ _ => true) (start {} 0) editedAfterDownload).any (fun w =>
      decide (w.daemon.phase = .selecting) && w.daemon.suppressedUntil.isNone &&
        w.daemon.debouncer.isEmpty && w.daemon.channel.isEmpty &&
          decide (w.events[0]? = some ("note.md", true)) && decide (w.ended.map Prod.fst = [0])) =
      true := by
    decide +kernel
  obtain ⟨w, hw, hfacts⟩ := (Option.any_eq_true _ _).mp hrun
  simp only [Bool.and_eq_true, decide_eq_true_eq, Option.isNone_iff_eq_none,
    List.isEmpty_iff] at hfacts
  obtain ⟨⟨⟨⟨⟨hphase, hfree⟩, hempty⟩, hchannel⟩, hevent⟩, hended⟩ := hfacts
  have hreach : Runs.Reaches step Runs.anything (start {} 0) w :=
    Runs.Reaches.run (fun _ _ _ => trivial) .start hw
  obtain ⟨cycle, hcycle, hindex, -⟩ :=
    hall {} 0 w hreach ⟨hphase, by simp [hfree], hempty, hchannel⟩ 0 "note.md" hevent
  have hfirst : cycle.1 ∈ w.ended.map Prod.fst := List.mem_map_of_mem hcycle
  rw [hended, List.mem_singleton] at hfirst
  omega

end Watch

end ObSink.Engine
