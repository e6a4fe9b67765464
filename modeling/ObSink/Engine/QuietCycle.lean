import ObSink.Engine.Converge

/-! # One quiet cycle converges

With nobody else writing, nothing failing and no limit met, one cycle makes
folder, server and base agree on every path that is not ignored, and leaves
the next one nothing to do.
-/

namespace ObSink.Engine

open Prog (Holds Reaches exec execAll)

/-- Where folder and server agree, the diff plans nothing. -/
theorem plan_nothing {context : Context} {choose : String → ConflictResolutionChoice}
    {start : String → View} {plan : SyncPlan} {world : World}
    (hready : PlanReady context choose start plan world)
    (hlevel : ∀ path, context.ignore.isIgnored path = false →
      fileVersion context.crypto (start path).file = version (start path).row) :
    plan = ⟨[], [], [], []⟩ := by
  obtain ⟨base, working, remote, rfl, hplanned, _⟩ := hready
  have hnothing : ∀ path, decisionAt base working remote path = .nothing := by
    intro path
    have hpath := hplanned path
    cases hdecision : decisionAt base working remote path with
    | nothing => rfl
    | upload action =>
        rw [hdecision] at hpath
        cases hpath with
        | upload _ hpushes hdiffers => exact absurd (hlevel path hpushes.seen) hdiffers
    | download action =>
        rw [hdecision] at hpath
        cases hpath with
        | download _ _ hseen _ _ hdiffers => exact absurd (hlevel path hseen) hdiffers
    | conflict found =>
        rw [hdecision] at hpath
        cases hpath with
        | conflict _ _ hseen hdiffers => exact absurd (hlevel path hseen) hdiffers
  have hupload : (diffManifests base working remote).upload = [] := by
    rw [List.eq_nil_iff_forall_not_mem]
    intro action hmem
    have hdecision := mem_diff_upload.mp hmem
    rw [hnothing] at hdecision
    cases hdecision
  have hdownload : (diffManifests base working remote).download = [] := by
    rw [List.eq_nil_iff_forall_not_mem]
    intro action hmem
    have hdecision := mem_diff_download.mp hmem
    rw [hnothing] at hdecision
    cases hdecision
  have hconflicts : (diffManifests base working remote).conflicts = [] := by
    rw [List.eq_nil_iff_forall_not_mem]
    intro conflict hmem
    have hdecision := mem_diff_conflicts.mp hmem
    rw [hnothing] at hdecision
    cases hdecision
  rw [hupload, hdownload, hconflicts]

/-- One quiet cycle: every operation it sends is accepted, it completes without
a conflict or a failure, all three sides agree afterwards, and the next plan is
empty. -/
theorem quiet_cycle_converges {context : Context} (hideal : context.Ideal)
    {choose : String → ConflictResolutionChoice} (hchoose : Decisive choose) {world : World}
    (hsound : Sound context world) :
    (∀ op next before, Reaches (Undisturbed context choose false)
        (cycle context.crypto context.ignore) world (.act (.applyOp op) next) before →
      ∀ reply after, Undisturbed context choose false (.applyOp op) before reply after →
        ∃ outcome, reply = .ok outcome) ∧
    ∀ value after, Reaches (Undisturbed context choose false)
        (cycle context.crypto context.ignore) world (.pure value) after →
      (∃ plan result, value = .ok (plan, result) ∧ plan.failures = [] ∧ result.failures = [] ∧
        result.conflicts = [] ∧ result.checkpointError = none) ∧
      (∀ path, context.ignore.isIgnored path = false →
        ∃ version, (after.view context path).versions context.crypto = .all version) ∧
      ∀ next later, Reaches (Undisturbed context choose false)
          (prepareSync context.crypto context.ignore) after (.pure next) later →
        next = .ok ⟨[], [], [], []⟩ := by
  let target := fun path => (world.view context path).goal context choose path
  have hcycle := @holds_cycle context choose false target hideal hchoose world hsound fun _ => rfl
  constructor
  · intro op next before hreaches reply after hperform
    have hhere := hcycle.reaches (fun _ => rfl) hreaches
    have haccepted := ((hhere before rfl reply after hperform).1 op.path).2.2 rfl
    cases reply with
    | ok outcome => exact ⟨outcome, rfl⟩
    | error error => exact absurd rfl haccepted
  · intro value after hreaches
    obtain ⟨plan, result, rfl, hfailures, hdone⟩ := hcycle.reaches (fun _ => rfl) hreaches
    obtain ⟨hclean, hconflicts⟩ := hdone.clean rfl
    have hversions : ∀ path, context.ignore.isIgnored path = false →
        ∃ version, (after.view context path).versions context.crypto = .all version := by
      intro path hseen
      rw [hdone.versions path]
      exact hdone.level rfl path hseen
    refine ⟨⟨plan, result, rfl, hfailures, hclean, hconflicts, hdone.checkpointed⟩, hversions, ?_⟩
    intro next later hnext
    have hprepare := @holds_prepareSync context choose false
      (fun path => (after.view context path).goal context choose path) hideal after hdone.sound
      fun _ => rfl
    obtain ⟨plan, rfl, hready⟩ := hprepare.reaches (fun _ => rfl) hnext
    rw [plan_nothing hready]
    intro path hseen
    obtain ⟨version, hall⟩ := hversions path hseen
    exact (congrArg Versions.folder hall).trans (congrArg Versions.server hall).symm

/-- A cycle that uploads the one file of the sample device. -/
theorem quiet_cycle_uploads_in_sample :
    let choose := fun _ => ConflictResolutionChoice.keepLocal
    let run := exec (handle sampleContext) (cycle .sample .defaults) (List.replicate 17 {})
      sampleWorld
    Reaches (Undisturbed sampleContext choose false) (cycle .sample .defaults) sampleWorld run.1
        run.2 ∧
      run.1.result?.isSome = true ∧
      ∃ version, (run.2.view sampleContext "note").versions .sample = .all version := by
  intro choose run
  have hdone : run.1.result?.isSome = true := by decide +kernel
  obtain ⟨value, hvalue⟩ := Option.isSome_iff_exists.mp hdone
  have hreaches : Reaches (Undisturbed sampleContext choose false) (cycle .sample .defaults)
      sampleWorld (.pure value) run.2 :=
    Prog.exec_reaches_pure undisturbed_of_check (by decide +kernel) hvalue
  refine ⟨?_, hdone, ?_⟩
  · rw [Prog.eq_pure_of_result? hvalue]
    exact hreaches
  exact ((quiet_cycle_converges sampleContext_ideal (fun _ => Or.inl rfl) sampleWorld_sound).2
    value run.2 hreaches).2.1 "note" (by decide)

end ObSink.Engine
