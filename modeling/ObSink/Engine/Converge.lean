import ObSink.Engine.Quiet

/-! # An undisturbed cycle settles every path

The stages of a cycle put together: what the diff plans for a path, the
downloads, the resolutions, the uploads and the checkpoint.
-/

namespace ObSink.Engine

open Prog (Setting Holds Within perform holds_bind holds_perform holds_pure holds_forall)

section Planned

variable {context : Context} {choose : String → ConflictResolutionChoice} {path : String}
  {start : View}

variable (context choose path start) in
/-- What a decision of the diff means for the path. -/
inductive Planned : Decision → Prop
  | nothing (hready : context.ignore.isIgnored path = true ∨
      fileVersion context.crypto start.file = version start.row) : Planned .nothing
  | download (action : SyncAction) (hpath : action.path = path)
      (hseen : context.ignore.isIgnored path = false)
      (hkind : (action.kind = .download ∧
          ∃ entry, start.row = some entry ∧ entry.deleted = false) ∨
        (action.kind = .deleteLocal ∧ version start.row = .gone))
      (hgoal : start.goal context choose path = .all (version start.row))
      (hdiffers : fileVersion context.crypto start.file ≠ version start.row) :
      Planned (.download action)
  | upload (action : SyncAction) (hpushes : Pushes context choose path start action)
      (hdiffers : fileVersion context.crypto start.file ≠ version start.row) :
      Planned (.upload action)
  | conflict (found : Conflict) (hpath : found.path = path)
      (hseen : context.ignore.isIgnored path = false)
      (hdiffers : fileVersion context.crypto start.file ≠ version start.row)
      (hremote : (found.remoteEntry.deleted = true ∧ version start.row = .gone) ∨
        (found.remoteEntry.deleted = false ∧
          ∃ entry, start.row = some entry ∧ entry.deleted = false))
      (hlocal : choose path = .keepLocal →
        Pushes context choose path start (conflictToUpload found))
      (hother : choose path = .keepRemote →
        start.goal context choose path = .all (version start.row)) : Planned (.conflict found)

/-- A version that is there is that of a live row. -/
theorem live_of_version {row : Option FileEntry} (hpresent : version row ≠ .gone) :
    ∃ entry, row = some entry ∧ entry.deleted = false := by
  cases row with
  | none => exact absurd rfl hpresent
  | some entry =>
      refine ⟨entry, rfl, ?_⟩
      by_contra hdeleted
      simp [version, hdeleted] at hpresent

/-- The gate's hash is what an action that knows the row presents. -/
theorem parentHash_of_row {action : SyncAction} {row : FileEntry}
    (hremote : action.remoteEntry = some row) : row.hash = (parentHash action).getD "" := by
  by_cases hblank : row.hash = ""
  · simp [parentHash, hremote, Option.filter, hblank]
  · simp [parentHash, hremote, Option.filter, hblank]

/-- Every conflict is answered with one of the two sides. -/
def Decisive (choose : String → ConflictResolutionChoice) : Prop :=
  ∀ path, choose path = .keepLocal ∨ choose path = .keepRemote

/-- What the diff of a device in good order plans. -/
theorem planned_of_diff {world : World} (hsound : Sound context world) {manifest : Manifest}
    (hmirrors : Mirrors context world.server manifest) (now : Nat) (path : String) :
    Planned context choose path (world.view context path)
      (decisionAt (keep context.ignore world.device.base)
        (keep context.ignore (buildWorkingManifest context.crypto context.ignore now
          world.device.folder world.device.base))
        (keep context.ignore manifest) path) := by
  simp only [decisionAt, keep_getElem?]
  cases hseen : context.ignore.isIgnored path with
  | true =>
      simp only [↓reduceIte, decide3_eq, version]
      exact .nothing (Or.inl hseen)
  | false =>
      simp only [Bool.false_eq_true, ↓reduceIte]
      have hplain := hsound.plainFolder
      have hlocal :=
        version_working context.crypto context.ignore now hplain world.device.base hseen
      have hside := working_side context.crypto context.ignore now hplain world.device.base hseen
      generalize (buildWorkingManifest context.crypto context.ignore now world.device.folder
        world.device.base)[path]? = working at hlocal hside
      rw [hmirrors path]
      let start := world.view context path
      change Planned context choose path start (decide3 path start.base working start.row)
      change version working = fileVersion context.crypto start.file at hlocal
      change (∃ file, start.file = some file ∧
          localOrTombstone working start.base = walkEntry context.crypto file) ∨
        (start.file = none ∧ (localOrTombstone working start.base).deleted = true) at hside
      -- an action that carries the local side and knows the row pushes it
      have hpushes : ∀ action : SyncAction, action.path = path →
          action.localEntry = some (localOrTombstone working start.base) →
          action.kind = (if (localOrTombstone working start.base).deleted then .deleteRemote
            else .upload) →
          (∀ row, start.row = some row → action.remoteEntry = some row) →
          version working ≠ version start.row → version working ≠ version start.base →
          (version start.row = version start.base ∨ choose path = .keepLocal) →
          Pushes context choose path start action := by
        intro action hpath hentry hkind hremote hdiffers hchanged hwins
        refine ⟨hpath, hseen, ?_, fun row hrow => parentHash_of_row (hremote row hrow), ?_⟩
        · rcases hside with ⟨file, hfile, hwalk⟩ | ⟨hfile, hdeleted⟩
          · rw [hwalk] at hentry hkind
            exact Or.inl ⟨hkind, file, hfile, hentry⟩
          · rw [hdeleted] at hkind
            refine Or.inr ⟨hkind, hfile, ?_⟩
            rw [hlocal, hfile] at hdiffers
            obtain ⟨entry, hrow, _⟩ := live_of_version (Ne.symm hdiffers)
            exact ⟨entry, hrow⟩
        · rw [hlocal] at hdiffers hchanged
          simp only [View.goal, settle, hseen, Bool.false_eq_true, ↓reduceIte, View.versions,
            hdiffers, hchanged, or_self, hwins]
      rw [decide3_eq]
      split
      next hsame =>
        rw [hlocal] at hsame
        exact .nothing (Or.inr hsame)
      next hdiffers =>
        split
        next hunchanged =>
          refine .download _ rfl hseen ?_ ?_ (hlocal ▸ hdiffers)
          · cases hversion : version start.row with
            | present hash =>
                refine Or.inl ⟨rfl, live_of_version ?_⟩
                rw [hversion]
                simp
            | gone => exact Or.inr ⟨rfl, rfl⟩
          · rw [hlocal] at hunchanged
            simp only [View.goal, settle, hseen, Bool.false_eq_true, ↓reduceIte, View.versions,
              hunchanged, or_true]
        next hchanged =>
          split
          next hremote =>
            refine .upload _ (hpushes _ rfl rfl ?_ (fun row hrow => hrow) hdiffers hchanged
              (Or.inl hremote)) (hlocal ▸ hdiffers)
            rcases hside with ⟨file, hfile, hwalk⟩ | ⟨hfile, hdeleted⟩
            · rw [hlocal, hfile, hwalk]
              rfl
            · rw [hlocal, hfile, hdeleted]
              rfl
          next hmoved =>
            refine .conflict _ rfl hseen (hlocal ▸ hdiffers) ?_ ?_ ?_
            · by_cases hgone : version start.row = .gone
              · refine Or.inl ⟨?_, hgone⟩
                cases hrow : start.row with
                | none => rfl
                | some entry =>
                    rw [hrow] at hgone
                    by_contra hlive
                    simp [localOrTombstone] at hlive
                    simp [version, hlive] at hgone
              · obtain ⟨entry, hrow, hlive⟩ := live_of_version hgone
                refine Or.inr ⟨?_, entry, hrow, hlive⟩
                simp [hrow, localOrTombstone, hlive]
            · intro hkeep
              refine hpushes _ rfl rfl rfl ?_ hdiffers hchanged (Or.inr hkeep)
              intro row hrow
              simp [conflictToUpload, hrow, localOrTombstone]
            · intro hkeep
              rw [hlocal] at hdiffers hchanged
              simp only [View.goal, settle, hseen, Bool.false_eq_true, ↓reduceIte, View.versions,
                hdiffers, hchanged, hmoved, hkeep, or_self, reduceCtorEq]

end Planned

/-! ## The stages -/

section Stages

variable {context : Context} {choose : String → ConflictResolutionChoice} {sizes : Bool}
  {target : String → Versions} {start : String → View} {base working remote : Manifest}

variable (context) in
/-- What is known of a path after the downloads. -/
def Downloaded (start : View) : Decision → View → Prop
  | .download _ => Pulled context start
  | _ => (· = start)

theorem mine_of_mem {actions : List SyncAction} (hnodup : (actions.map SyncAction.path).Nodup)
    {action : SyncAction} (hmem : action ∈ actions) : mine action.path actions = [action] := by
  induction actions with
  | nil => cases hmem
  | cons head rest ih =>
      simp only [List.map_cons, List.nodup_cons] at hnodup
      rcases List.mem_cons.mp hmem with rfl | hrest
      · have hnone : mine action.path rest = [] := by
          simp only [mine, List.filter_eq_nil_iff, decide_eq_true_eq]
          exact fun other hother hsame =>
            hnodup.1 (List.mem_map.mpr ⟨other, hother, hsame⟩)
        rw [mine_cons_self rfl, hnone]
      · have hne : head.path ≠ action.path :=
          fun hsame => hnodup.1 (List.mem_map.mpr ⟨action, hrest, hsame.symm⟩)
        rw [mine_cons_of_ne hne, ih hnodup.2 hrest]

theorem mine_of_not_mem {actions : List SyncAction} {path : String}
    (hnone : ∀ action ∈ actions, action.path ≠ path) : mine path actions = [] := by
  simpa [mine, List.filter_eq_nil_iff] using hnone

/-- One path through the downloads of a plan. -/
theorem holds_downloads_at (hideal : context.Ideal) (path : String)
    (hgoal : (start path).goal context choose path = target path)
    (hplanned : Planned context choose path (start path) (decisionAt base working remote path))
    {world : World} (hhere : Here context path (· = start path) world) :
    Holds (quiet context choose sizes target path)
      (fun failures world => Spares path failures ∧
        (Here context path (Downloaded context (start path) (decisionAt base working remote path))
          world ∨ failures.any SyncFailure.fatal = true))
      (applyDownloads context.crypto (diffManifests base working remote).download) world := by
  have hnodup := nodup_diff_download base working remote
  have hstart := @stable_here context choose sizes target path hideal _ (targets_start hgoal)
  -- a path with another decision is not among the downloads
  have hidle : (∀ action, decisionAt base working remote path ≠ .download action) →
      Holds (quiet context choose sizes target path)
        (fun failures world => Here context path (· = start path) world ∧ Spares path failures)
        (applyDownloads context.crypto (diffManifests base working remote).download) world := by
    intro hnone
    refine holds_applyDownloads_idle context.crypto hstart hnodup ?_ hhere
    intro hmem
    obtain ⟨action, haction, rfl⟩ := List.mem_map.mp hmem
    exact hnone action (mem_diff_download.mp haction)
  cases hdecision : decisionAt base working remote path with
  | download action =>
      rw [hdecision] at hplanned
      cases hplanned with
      | download _ hpath hseen hkind hpull _ =>
        rw [hgoal] at hpull
        have hmem : action ∈ (diffManifests base working remote).download :=
          mem_diff_download.mpr (by rw [hpath]; exact hdecision)
        have hpulled := @stable_here context choose sizes target path hideal _
          (targets_pulled hseen hpull)
        rcases hkind with ⟨hkind, entry, hrow, hlive⟩ | ⟨hkind, hgone⟩
        · have hrule : FetchRule (quiet context choose sizes target path) path context.crypto
              (Here context path (· = start path)) (Here context path (Pulled context (start path)))
              (fun _ => False) (fun blob => Here context path (Fetching (start path) blob)) := by
            refine ⟨hstart, hpulled, stable_never,
              fun blob => stable_here hideal (targets_fetching hgoal blob),
              triple_get hrow hlive hgoal, ?_, ?_⟩
            · intro blob error world hdecrypt hhere
              obtain ⟨content, _, hfound⟩ := decrypt_of_fetching hrow hlive hhere
              rw [hdecrypt] at hfound
              cases hfound
            · intro blob plaintext hdecrypt
              exact triple_write hrow hlive hseen hpull hdecrypt
          refine (hrule.holds_applyDownloads hnodup hmem hpath hkind hhere).mono ?_
          intro failures world hfetched
          rcases hfetched with ⟨hafter, hspares⟩ | ⟨hnever, _⟩ | ⟨_, hfatal, hspares⟩
          · exact ⟨hspares, Or.inl hafter⟩
          · exact hnever.elim
          · exact ⟨hspares, Or.inr hfatal⟩
        · refine (holds_applyDownloads_delete context.crypto hstart hpulled
            stable_never (triple_deleteLocal hgone hseen hpull) hnodup hmem
            hpath hkind hhere).mono ?_
          rintro failures world (⟨hafter, hspares⟩ | ⟨hnever, _⟩)
          · exact ⟨hspares, Or.inl hafter⟩
          · exact hnever.elim
  | nothing =>
      refine (hidle (by simp [hdecision])).mono ?_
      exact fun failures world hboth => ⟨hboth.2, Or.inl hboth.1⟩
  | upload action =>
      refine (hidle (by simp [hdecision])).mono ?_
      exact fun failures world hboth => ⟨hboth.2, Or.inl hboth.1⟩
  | conflict found =>
      refine (hidle (by simp [hdecision])).mono ?_
      exact fun failures world hboth => ⟨hboth.2, Or.inl hboth.1⟩

/-- The downloads of a plan. -/
theorem holds_downloads (hideal : context.Ideal)
    (hgoal : ∀ path, (start path).goal context choose path = target path)
    (hplanned : ∀ path, Planned context choose path (start path)
      (decisionAt base working remote path))
    {world : World} (hhere : ∀ path, Here context path (· = start path) world) :
    Holds (quietAll context choose sizes target)
      (fun failures world => failures = [] ∧ ∀ path, Here context path
        (Downloaded context (start path) (decisionAt base working remote path)) world)
      (applyDownloads context.crypto (diffManifests base working remote).download) world := by
  have hall : Holds (quietAll context choose sizes target)
      (fun failures world => ∀ path, Spares path failures ∧
        (Here context path (Downloaded context (start path) (decisionAt base working remote path))
          world ∨ failures.any SyncFailure.fatal = true))
      (applyDownloads context.crypto (diffManifests base working remote).download) world :=
    holds_forall fun path =>
      holds_downloads_at hideal path (hgoal path) (hplanned path) (hhere path)
  refine hall.mono ?_
  intro failures world hpaths
  have hnone : failures = [] := by
    cases failures with
    | nil => rfl
    | cons failure rest => exact absurd (by simp) (hpaths failure.path).1
  subst hnone
  refine ⟨rfl, fun path => ?_⟩
  rcases (hpaths path).2 with hdone | hfatal
  · exact hdone
  · cases hfatal

variable (context choose) in
/-- Where a path stands during the resolutions. -/
def resolving (path : String) (start : View) (decision : Decision) (phase : Phase)
    (uploads : List SyncAction) (deferred : Bool) (world : World) : Prop :=
  deferred = false ∧
    match decision, phase with
    | .conflict _, .untouched => uploads = [] ∧ Here context path (· = start) world
    | .conflict _, .fetched blob =>
        (uploads = [] ∧ ∃ entry, start.row = some entry ∧ entry.deleted = false) ∧
          Here context path (Fetching start blob) world
    | .conflict found, .settled =>
        if choose path = .keepLocal then
          uploads = [conflictToUpload found] ∧ Here context path (· = start) world
        else uploads = [] ∧ Here context path (Pulled context start) world
    | .upload action, _ => uploads = [action] ∧ Here context path (· = start) world
    | .download _, _ => uploads = [] ∧ Here context path (Pulled context start) world
    | .nothing, _ => uploads = [] ∧ Here context path (· = start) world

/-- A fact beside an assertion. -/
theorem Stable.fact_and {setting : Setting Effect Effect.Reply World} {path : String}
    {inv : World → Prop} (hstable : Stable setting path inv) (fact : Prop) :
    Stable setting path fun world => fact ∧ inv world := by
  have hboth := hstable.and_fact fact
  simpa only [and_comm] using hboth

theorem stable_resolving (hideal : context.Ideal) {path : String}
    (hgoal : (start path).goal context choose path = target path) (hchoose : Decisive choose)
    {decision : Decision} (hplanned : Planned context choose path (start path) decision)
    (phase : Phase) (uploads : List SyncAction) (deferred : Bool) :
    Stable (quiet context choose sizes target path) path
      (resolving context choose path (start path) decision phase uploads deferred) := by
  have hstart := @stable_here context choose sizes target path hideal _ (targets_start hgoal)
  apply Stable.fact_and
  cases hplanned with
  | nothing _ => exact hstart.fact_and _
  | upload action _ _ => exact hstart.fact_and _
  | download action hpath hseen hkind hpull _ =>
      rw [hgoal] at hpull
      exact (stable_here hideal (targets_pulled hseen hpull)).fact_and _
  | conflict found hpath hseen _ hremote hlocal hother =>
      cases phase with
      | untouched => exact hstart.fact_and _
      | fetched blob => exact (stable_here hideal (targets_fetching hgoal blob)).fact_and _
      | settled =>
          by_cases hkeep : choose path = .keepLocal
          · simp only [hkeep, ↓reduceIte]
            exact hstart.fact_and _
          · simp only [hkeep, ↓reduceIte]
            have hpull := hother ((hchoose path).resolve_left hkeep)
            rw [hgoal] at hpull
            exact (stable_here hideal (targets_pulled hseen hpull)).fact_and _

theorem answerRule (hideal : context.Ideal) {path : String}
    (hgoal : (start path).goal context choose path = target path) (hchoose : Decisive choose)
    (hplanned : Planned context choose path (start path) (decisionAt base working remote path))
    {resolutions : List ConflictResolution}
    (hanswers : ∀ conflict ∈ (diffManifests base working remote).conflicts,
      resolutionFor resolutions conflict.path = some (choose conflict.path)) :
    AnswerRule (quiet context choose sizes target path) path context.crypto resolutions
      (diffManifests base working remote).conflicts
      (resolving context choose path (start path) (decisionAt base working remote path))
      (fun _ => False) := by
  have hstable := fun phase uploads deferred =>
    @stable_resolving context choose sizes target start hideal path hgoal hchoose _ hplanned phase
      uploads deferred
  have hown : ∀ conflict ∈ (diffManifests base working remote).conflicts, conflict.path = path →
      decisionAt base working remote path = .conflict conflict ∧
        choiceOf resolutions conflict = some (choose path) := by
    intro conflict hmem hpath
    refine ⟨by rw [← hpath]; exact mem_diff_conflicts.mp hmem, ?_⟩
    have hanswer := hanswers conflict hmem
    rw [hpath] at hanswer
    rcases hchoose path with hkeep | hkeep <;>
      simp [choiceOf, hpath, hanswer, hkeep, effectiveChoice]
  -- a decisive chooser keeps one of the sides: no copies
  have hboth : ∀ conflict ∈ (diffManifests base working remote).conflicts,
      choiceOf resolutions conflict ≠ some .keepBoth := by
    intro conflict hmem
    have hanswer := hanswers conflict hmem
    rcases hchoose conflict.path with hkeep | hkeep <;>
      simp [choiceOf, hanswer, hkeep, effectiveChoice]
  refine ⟨hstable, ?_, ?_, ?_, ?_, ?_, ?_, ?_, ?_, ?_, ?_⟩
  · intro conflict hmem uploads deferred world hpath hnone
    rw [(hown conflict hmem hpath).2] at hnone
    cases hnone
  · intro conflict hmem uploads deferred world hpath hdefer
    rw [(hown conflict hmem hpath).2] at hdefer
    rcases hchoose path with hkeep | hkeep <;> simp [hkeep] at hdefer
  · intro conflict hmem uploads deferred world hpath hkeep hstate
    obtain ⟨hdecision, hchoice⟩ := hown conflict hmem hpath
    rw [hchoice, Option.some.injEq] at hkeep
    rw [hdecision] at hstate ⊢
    obtain ⟨hdeferred, huploads, hhere⟩ := hstate
    refine ⟨hdeferred, ?_⟩
    simp only [hkeep, ↓reduceIte, huploads, List.nil_append, true_and]
    exact hhere
  · -- the other side is deleted: the file goes
    intro conflict hmem uploads deferred hpath hkeep hdeleted
    obtain ⟨hdecision, hchoice⟩ := hown conflict hmem hpath
    rw [hchoice, Option.some.injEq] at hkeep
    rw [hdecision] at hplanned ⊢
    cases hplanned with
    | conflict _ _ hseen _ hremote hlocal hother =>
      have hgone : version (start path).row = .gone := by
        rcases hremote with ⟨_, hgone⟩ | ⟨hlive, _⟩
        · exact hgone
        · rw [hdeleted] at hlive
          cases hlive
      have hpull := hother hkeep
      rw [hgoal] at hpull
      rintro before reply after ⟨hdeferred, huploads, hhere⟩ hperform
      obtain ⟨hguarantee, hreply⟩ :=
        triple_deleteLocal hgone hseen hpull before reply after hhere hperform
      refine ⟨hguarantee, ?_⟩
      cases reply with
      | ok value =>
          refine ⟨hdeferred, ?_⟩
          simp only [hkeep, reduceCtorEq, ↓reduceIte]
          exact ⟨huploads, hreply⟩
      | error error => exact hreply.elim
  · rintro conflict hmem uploads deferred hpath hcases
    obtain ⟨hdecision, hchoice⟩ := hown conflict hmem hpath
    rcases hcases with ⟨hkeep, hlive⟩ | hcopy
    · rw [hdecision] at hplanned ⊢
      cases hplanned with
      | conflict _ _ hseen _ hremote hlocal hother =>
        have hrow : ∃ entry, (start path).row = some entry ∧ entry.deleted = false := by
          rcases hremote with ⟨hdeleted, _⟩ | ⟨_, hrow⟩
          · rw [hlive] at hdeleted
            cases hdeleted
          · exact hrow
        obtain ⟨entry, hrow, hentry⟩ := hrow
        rintro before reply after ⟨hdeferred, huploads, hhere⟩ hperform
        obtain ⟨hguarantee, hreply⟩ :=
          triple_get hrow hentry hgoal before reply after hhere hperform
        refine ⟨hguarantee, ?_⟩
        cases reply with
        | ok blob => exact ⟨hdeferred, ⟨huploads, entry, hrow, hentry⟩, hreply⟩
        | error error => exact hreply.elim
    · exact absurd hcopy (hboth conflict hmem)
  · intro conflict hmem blob uploads deferred world hpath hcases hstate
    obtain ⟨hdecision, _⟩ := hown conflict hmem hpath
    rcases hcases with ⟨error, hdecrypt⟩ | hcopy
    · rw [hdecision] at hstate
      obtain ⟨_, ⟨_, entry, hrow, hlive⟩, hhere⟩ := hstate
      obtain ⟨content, _, hfound⟩ := decrypt_of_fetching hrow hlive hhere
      rw [hdecrypt] at hfound
      cases hfound
    · exact absurd hcopy (hboth conflict hmem)
  · -- the other side is live and decrypts: the file is written over
    intro conflict hmem blob plaintext uploads deferred hpath hkeep hdecrypt
    obtain ⟨hdecision, hchoice⟩ := hown conflict hmem hpath
    rw [hchoice, Option.some.injEq] at hkeep
    rw [hdecision] at hplanned ⊢
    cases hplanned with
    | conflict _ _ hseen _ hremote hlocal hother =>
      have hpull := hother hkeep
      rw [hgoal] at hpull
      rintro before reply after ⟨hdeferred, ⟨huploads, entry, hrow, hlive⟩, hhere⟩ hperform
      obtain ⟨hguarantee, hreply⟩ :=
        triple_write hrow hlive hseen hpull hdecrypt before reply after hhere hperform
      refine ⟨hguarantee, ?_⟩
      cases reply with
      | ok value =>
          refine ⟨hdeferred, ?_⟩
          simp only [hkeep, reduceCtorEq, ↓reduceIte]
          exact ⟨huploads, hreply⟩
      | error error => exact hreply.elim
  · exact fun conflict hmem _ _ _ _ _ hcopy => absurd hcopy (hboth conflict hmem)
  · exact fun conflict hmem _ _ _ _ hcopy => absurd hcopy (hboth conflict hmem)
  · exact fun conflict hmem _ _ _ hcopy => absurd hcopy (hboth conflict hmem)

/-- The resolutions of a plan. -/
theorem holds_resolutions (hideal : context.Ideal)
    (hgoal : ∀ path, (start path).goal context choose path = target path)
    (hchoose : Decisive choose)
    (hplanned : ∀ path, Planned context choose path (start path)
      (decisionAt base working remote path))
    {resolutions : List ConflictResolution}
    (hanswers : ∀ conflict ∈ (diffManifests base working remote).conflicts,
      resolutionFor resolutions conflict.path = some (choose conflict.path))
    {left : List Conflict}
    (hsub : ∀ conflict ∈ left, conflict ∈ (diffManifests base working remote).conflicts)
    (hnodup : (left.map Conflict.path).Nodup) {resolved : Resolved} {world : World}
    (htracks : ∀ path, Tracks path
      (resolving context choose path (start path) (decisionAt base working remote path))
      (if path ∈ left.map Conflict.path then .untouched else .settled) resolved world) :
    Holds (quietAll context choose sizes target)
      (fun result world => ∃ resolved, result = .ok resolved ∧ ∀ path, Tracks path
        (resolving context choose path (start path) (decisionAt base working remote path))
        .settled resolved world)
      (applyResolutions context.crypto resolutions left resolved) world := by
  have hrule := fun path => @answerRule context choose sizes target start base working remote hideal
    path (hgoal path) hchoose (hplanned path) resolutions hanswers
  induction left generalizing resolved world with
  | nil => exact ⟨resolved, rfl, fun path => by simpa using htracks path⟩
  | cons conflict rest ih =>
      simp only [List.map_cons, List.nodup_cons] at hnodup
      have hmem := hsub conflict (by simp)
      rw [applyResolutions, holds_bind]
      -- the conflict's own path says that it succeeds, every path what became of it
      have hstep : Holds (quietAll context choose sizes target)
          (fun result world => ∀ path,
            (conflict.path = path → ∃ next, result = .ok next) ∧
            ∀ next, result = .ok next → Tracks path
              (resolving context choose path (start path) (decisionAt base working remote path))
              (if path ∈ rest.map Conflict.path then .untouched else .settled) next world)
          (applyResolution context.crypto resolutions resolved conflict) world := by
        refine holds_forall fun path => ?_
        have hpathTracks := htracks path
        by_cases hpath : conflict.path = path
        · rw [if_pos (by simp [hpath])] at hpathTracks
          refine ((hrule path).holds_own hmem hpath hpathTracks).mono ?_
          rintro (error | next) world hresult
          · exact hresult.elim
          · refine ⟨fun _ => ⟨next, rfl⟩, ?_⟩
            intro other hother
            obtain rfl := Except.ok.inj hother
            rw [if_neg (hpath ▸ hnodup.1)]
            exact hresult
        · have hsame : path ∈ (conflict :: rest).map Conflict.path ↔
              path ∈ rest.map Conflict.path := by
            simp [Ne.symm hpath]
          simp only [hsame] at hpathTracks
          refine ((hrule path).holds_other hmem hpath hpathTracks).mono ?_
          rintro (error | next) world hresult
          · exact ⟨fun hsame => absurd hsame hpath, by simp⟩
          · refine ⟨fun hsame => absurd hsame hpath, ?_⟩
            intro other hother
            obtain rfl := Except.ok.inj hother
            exact hresult
      refine hstep.mono ?_
      intro result world hpaths
      obtain ⟨next, rfl⟩ := (hpaths conflict.path).1 rfl
      exact ih (fun later hlater => hsub later (by simp [hlater])) hnodup.2
        fun path => (hpaths path).2 next rfl

/-! ## The manifest -/

/-- An operation that leaves every path as it is. -/
theorem holds_same {effect : Effect} {world : World} {post : effect.Reply → World → Prop}
    (hgoal : ∀ path, (world.view context path).goal context choose path = target path)
    (haccepted : ∀ path (reply : effect.Reply), Accepted path effect reply)
    (hperforms : ∀ env, env.Clean →
      answersBy choose effect (handle context env effect world).1 = true →
      Sound context (handle context env effect world).2 ∧
      (∀ path, (handle context env effect world).2.view context path = world.view context path) ∧
      post (handle context env effect world).1 (handle context env effect world).2) :
    Holds (quietAll context choose sizes target) post (perform effect) world := by
  rw [holds_perform]
  rintro before rfl reply after ⟨⟨⟨env, hclean, hhandle⟩, hanswered⟩, _⟩
  have hstep := hperforms env hclean
  rw [hhandle] at hstep
  obtain ⟨hafter, hview, hpost⟩ := hstep hanswered
  refine ⟨fun path => ⟨hafter path, ?_, fun _ => haccepted path reply⟩, hpost⟩
  rw [hview path]
  exact hgoal path

theorem handle_getManifest {world : World} (hsound : Sound context world) {env : Env}
    (hclean : env.Clean) (ifNoneMatch : Option String) :
    handle context env (.getManifest ifNoneMatch) world =
      (.ok (if Server.ifNoneMatchHits ifNoneMatch (Server.etagOf world.server.vault.revision) then
        .notModified
      else .rows world.server.vault.files (Server.etagOf world.server.vault.revision)), world) := by
  simp only [handle, Env.onNetwork, hclean.1, Server.getManifest, hsound.honest.member]
  by_cases hhit : Server.ifNoneMatchHits ifNoneMatch
      (Server.etagOf world.server.vault.revision) = true
  · simp only [if_pos hhit]
  · simp only [if_neg hhit]

/-- A fresh cache is right. -/
theorem Sound.refreshed {world : World} (hsound : Sound context world) {manifest : Manifest}
    (hmirrors : Mirrors context world.server manifest) :
    Sound context { world with device := { world.device with
      cache := some ⟨some (Server.etagOf world.server.vault.revision), manifest⟩ } } := by
  intro path
  have hpath := hsound path
  refine ⟨hpath.member, hpath.noStrays, hpath.row, hpath.named, ?_⟩
  intro cache etag hcache hetag
  obtain rfl := Option.some.inj hcache
  exact ⟨world.server.vault.revision, (Option.some.inj hetag).symm, le_refl _,
    fun _ => hmirrors path⟩

variable (context) in
/-- A manifest that mirrors the server, with every path as it was. -/
def Mirrored (world : World) (result : Except SyncEngineError Manifest) (after : World) : Prop :=
  ∃ manifest, result = .ok manifest ∧ Mirrors context after.server manifest ∧
    Sound context after ∧ ∀ path, after.view context path = world.view context path

/-- The manifest a cycle gets, through the cache or not, mirrors the server. -/
theorem holds_fetchRemoteManifest {world : World} (hsound : Sound context world)
    (hgoal : ∀ path, (world.view context path).goal context choose path = target path) :
    Holds (quietAll context choose sizes target) (Mirrored context world)
      (fetchRemoteManifest context.crypto) world := by
  rw [fetchRemoteManifest, holds_bind]
  refine holds_same hgoal (fun _ _ => trivial) fun env hclean _ => ?_
  simp only [handle, hclean.onDevice]
  refine ⟨hsound, fun _ => trivial, ?_⟩
  rw [getManifestIfChanged, holds_bind, holds_bind]
  refine holds_same hgoal (fun _ _ => trivial) fun env hclean _ => ?_
  rw [handle_getManifest hsound hclean]
  refine ⟨hsound, fun _ => rfl, ?_⟩
  by_cases hhit : Server.ifNoneMatchHits
      ((world.device.cache.filter fun cache => cache.etag.isSome).bind RemoteManifestCache.etag)
      (Server.etagOf world.server.vault.revision) = true
  · rw [if_pos hhit]
    -- not modified: the cache has the tag of the current revision
    cases hcached : world.device.cache.filter fun cache => cache.etag.isSome with
    | none =>
        rw [hcached] at hhit
        cases hhit
    | some cache =>
        obtain ⟨hcache, hsome⟩ := Option.filter_eq_some_iff.mp hcached
        obtain ⟨etag, hetag⟩ := Option.isSome_iff_exists.mp hsome
        rw [hcached, Option.bind_some, hetag] at hhit
        refine ⟨cache.manifest, rfl, ?_, hsound, fun _ => rfl⟩
        intro path
        obtain ⟨revision, rfl, _, hmirror⟩ := (hsound path).cached cache etag hcache hetag
        exact hmirror ((Server.ifNoneMatchHits_etagOf _ _).mp hhit)
  · rw [if_neg hhit]
    -- the rows decode to a mirror, which becomes the new cache
    obtain ⟨manifest, hdecode, hmirrors⟩ := hsound.honest.decode
    simp only [hdecode, holds_pure, Option.isSome_some, ↓reduceIte, holds_bind]
    refine holds_same hgoal (fun _ _ => trivial) fun env hclean _ => ?_
    simp only [handle, hclean.change]
    have hnew := hsound.refreshed hmirrors
    exact ⟨hnew, fun _ => rfl, manifest, rfl, hmirrors, hnew, fun _ => rfl⟩

/-! ## Uploads and the checkpoint -/

theorem Pushes.plain {path : String} {view : View} {action : SyncAction}
    (hpushes : Pushes context choose path view action) {world : World}
    (hhere : Here context path (· = view) world) : Plain path := by
  obtain ⟨hsound, rfl⟩ := hhere
  rcases hpushes.side with ⟨_, file, hfile, _⟩ | ⟨_, _, entry, hrow⟩
  · exact (hsound.named file hfile).1
  · exact plain_of_remoteAt hrow

/-- A path whose conflicts are resolved is ready, or has one action to come. -/
theorem uploading_of_resolving {path : String}
    (hgoal : (start path).goal context choose path = target path) (hchoose : Decisive choose)
    {decision : Decision} (hplanned : Planned context choose path (start path) decision)
    {uploads : List SyncAction} {deferred : Bool} {world : World}
    (hstate : resolving context choose path (start path) decision .settled uploads deferred world) :
    uploading context choose sizes target path (start path) uploads false world := by
  obtain ⟨_, hstate⟩ := hstate
  cases hplanned with
  | nothing hready =>
      obtain ⟨rfl, hsound, hview⟩ := hstate
      exact ⟨hsound, by rw [hview]; exact ⟨hready, hgoal⟩⟩
  | upload action hpushes _ =>
      obtain ⟨rfl, hhere⟩ := hstate
      exact ⟨hhere, hpushes⟩
  | download action hpath hseen hkind hpull _ =>
      obtain ⟨rfl, hsound, hpulled⟩ := hstate
      rw [hgoal] at hpull
      exact ⟨hsound, ready_pulled hseen hpull hpulled⟩
  | conflict found hpath hseen _ hremote hlocal hother =>
      by_cases hkeep : choose path = .keepLocal
      · simp only [hkeep, ↓reduceIte] at hstate
        obtain ⟨rfl, hhere⟩ := hstate
        exact ⟨hhere, hlocal hkeep⟩
      · simp only [hkeep, ↓reduceIte] at hstate
        obtain ⟨rfl, hsound, hpulled⟩ := hstate
        have hpull := hother ((hchoose path).resolve_left hkeep)
        rw [hgoal] at hpull
        exact ⟨hsound, ready_pulled hseen hpull hpulled⟩

/-- An action still to come is one that pushes its path. -/
theorem pushes_of_mem {uploads : List SyncAction} {world : World}
    (hstates : ∀ path, uploading context choose sizes target path (start path)
      (mine path uploads) false world) {action : SyncAction} (hmem : action ∈ uploads) :
    Here context action.path (· = start action.path) world ∧
      Pushes context choose action.path (start action.path) action := by
  have hmine : action ∈ mine action.path uploads := by simp [mine, hmem]
  obtain ⟨left, right, hsplit⟩ := List.append_of_mem hmine
  have hstate := hstates action.path
  rw [hsplit] at hstate
  obtain ⟨_, _, _, hhere, hpushes⟩ := uploading_cons hstate
  exact ⟨hhere, hpushes⟩

variable (context choose sizes target start) in
/-- A path after the uploads: ready, or refused and held back. -/
def Uploaded (holdBack : List String) (world : World) : Prop :=
  ∀ path, ∃ refused, uploading context choose sizes target path (start path) [] refused world ∧
    (path ∈ holdBack ↔ refused = true)

/-- The upload phase. -/
theorem holds_uploads (hideal : context.Ideal)
    (hgoal : ∀ path, (start path).goal context choose path = target path)
    {uploads : List SyncAction} {world : World}
    (hstates : ∀ path, uploading context choose sizes target path (start path)
      (mine path uploads) false world) :
    Holds (quietAll context choose sizes target)
      (fun outcome world => Uploaded context choose sizes target start outcome.holdBack world ∧
        outcome.failures.any SyncFailure.fatal = false ∧ outcome.Accounted [])
      (runUploads uploads []) world := by
  have hpaths : Holds (quietAll context choose sizes target)
      (fun outcome world => ∀ path, ∃ rest refused,
        uploading context choose sizes target path (start path) rest refused world ∧
        Marks path [] outcome refused ∧
        (rest = [] ∨ outcome.failures.any SyncFailure.fatal = true))
      (runUploads uploads []) world := by
    refine holds_forall fun path => ?_
    refine (uploadRule hideal (hgoal path)).holds_runUploads quietNetwork ?_ ?_ [] (hstates path)
    · intro action hmem
      obtain ⟨hhere, hpushes⟩ := pushes_of_mem hstates hmem
      exact hpushes.plain hhere
    · intro action hmem _
      obtain ⟨_, hpushes⟩ := pushes_of_mem hstates hmem
      exact hpushes.side.imp And.left And.left
  have hmild : Holds (anyWorld (Undisturbed context choose sizes) Eq)
      (fun outcome _ => outcome.failures.any SyncFailure.fatal = false) (runUploads uploads [])
      world := by
    have hquiet := @quietNetwork context choose sizes target ""
    refine holds_runUploads_mild ⟨hquiet.send, hquiet.receive, hquiet.read, hquiet.refusal⟩ ?_
      uploads [] world
    intro op before error after hperform
    obtain ⟨_, hstatus⟩ := undisturbed_refusal hperform
    simp only [List.mem_cons, List.not_mem_nil, or_false] at hstatus
    rcases hstatus with hstatus | hstatus | hstatus | hstatus <;> rw [hstatus] <;> rfl
  refine ((hpaths.and hmild).with_result (runUploads_accounted uploads [])).mono ?_
  rintro outcome world ⟨⟨hpaths, hmild⟩, haccounted⟩
  refine ⟨fun path => ?_, hmild, haccounted⟩
  obtain ⟨rest, refused, hstate, hmarks, hrest⟩ := hpaths path
  rw [hmild] at hrest
  obtain rfl := hrest.resolve_right (by simp)
  exact ⟨refused, hstate, by simpa [Marks] using hmarks⟩

/-- A path that is ready or was refused is in good order and on its way. -/
theorem Uploaded.here {holdBack : List String} {world : World}
    (huploaded : Uploaded context choose sizes target start holdBack world)
    (hgoal : ∀ path, (start path).goal context choose path = target path) (path : String) :
    Here context path (fun view => view.goal context choose path = target path) world := by
  obtain ⟨refused, hstate, _⟩ := huploaded path
  cases refused with
  | false => exact ⟨hstate.1, hstate.2.2⟩
  | true =>
      obtain ⟨⟨hsound, hview⟩, _⟩ := hstate
      exact ⟨hsound, by rw [hview]; exact hgoal path⟩

/-- The checkpoint brings every path to its target. -/
theorem holds_checkpoint (hgoal : ∀ path, (start path).goal context choose path = target path)
    {holdBack : List String} {world : World}
    (huploaded : Uploaded context choose sizes target start holdBack world) :
    Holds (quietAll context choose sizes target)
      (fun result after => result = .ok () ∧ Sound context after ∧
        (∀ path, (after.view context path).versions context.crypto = target path) ∧
        ∀ path, path ∉ holdBack → context.ignore.isIgnored path = false →
          ∃ version, target path = .all version)
      (checkpoint context.crypto holdBack) world := by
  have hsound : Sound context world := fun path => (huploaded.here hgoal path).1
  have hnow : ∀ path, (world.view context path).goal context choose path = target path :=
    fun path => (huploaded.here hgoal path).2
  rw [checkpoint, holds_bind]
  refine (holds_fetchRemoteManifest hsound hnow).mono ?_
  rintro result fetched ⟨manifest, rfl, hmirrors, hfetched, hview⟩
  have hsame : ∀ path, (fetched.view context path).goal context choose path = target path := by
    intro path
    rw [hview path]
    exact hnow path
  simp only [holds_bind]
  refine holds_same hsame (fun _ _ => trivial) fun env hclean _ => ?_
  simp only [handle, hclean.onDevice]
  refine ⟨hfetched, fun _ => trivial, ?_⟩
  refine (holds_perform (Effect.saveBase _)).mpr ?_
  rintro before rfl reply after ⟨⟨⟨env, hclean, hhandle⟩, _⟩, _⟩
  simp only [handle, hclean.change, Prod.mk.injEq] at hhandle
  obtain ⟨rfl, rfl⟩ := hhandle
  -- only the base is new
  let saved : World := { fetched with device := { fetched.device with
    base := checkpointManifest fetched.device.base manifest holdBack } }
  have hsaved : Sound context saved := fun path =>
    ⟨(hfetched path).member, (hfetched path).noStrays, (hfetched path).row, (hfetched path).named,
      (hfetched path).cached⟩
  have hbase : ∀ path, (saved.view context path).base =
      if path ∈ holdBack then (world.view context path).base
      else (world.view context path).row := by
    intro path
    have hlookup := checkpointManifest_getElem? fetched.device.base manifest holdBack path
    rw [hmirrors path] at hlookup
    rw [← hview path]
    exact hlookup
  have hversions : ∀ path, (saved.view context path).versions context.crypto = target path := by
    intro path
    have hparts : (saved.view context path).versions context.crypto =
        ⟨fileVersion context.crypto (world.view context path).file,
          version (world.view context path).row, version (saved.view context path).base⟩ := by
      rw [← hview path]
      rfl
    rw [hparts, hbase path]
    obtain ⟨refused, hstate, hheld⟩ := huploaded path
    cases refused with
    | true =>
        obtain ⟨⟨_, hstart⟩, _, htarget⟩ := hstate
        rw [if_pos (hheld.mpr rfl), htarget, ← hstart]
        rfl
    | false =>
        -- not refused: either ignored, or the three agree and the base joins them
        have hnot : path ∉ holdBack := fun hmem => by simpa using hheld.mp hmem
        obtain ⟨_, hready, hpath⟩ := hstate
        rw [if_neg hnot, ← hpath]
        rcases hready with hignored | hlevel
        · simp [View.goal, settle, hignored, View.versions]
        · cases hseen : context.ignore.isIgnored path with
          | true => simp [View.goal, settle, hseen, View.versions]
          | false =>
              rw [View.goal_of_level hlevel hseen, hlevel]
              rfl
  have hend : ∀ path, (saved.view context path).goal context choose path = target path := by
    intro path
    have hkept := hversions path
    obtain ⟨refused, hstate, _⟩ := huploaded path
    cases refused with
    | true =>
        obtain ⟨⟨_, hstart⟩, _, htarget⟩ := hstate
        rw [← hgoal path, View.goal, hkept, htarget, View.goal]
        have hlarge : (saved.view context path).tooLarge = (start path).tooLarge := by
          rw [← hstart, ← hview path]
          rfl
        rw [hlarge]
    | false =>
        obtain ⟨_, hready, hpath⟩ := hstate
        rw [View.goal, hkept, ← hpath, View.goal]
        rcases hready with hignored | hlevel
        · simp [settle, hignored]
        · cases hseen : context.ignore.isIgnored path with
          | true => simp [settle]
          | false => simp [settle, View.versions, hlevel, Versions.all]
  have hlevel : ∀ path, path ∉ holdBack → context.ignore.isIgnored path = false →
      ∃ version, target path = .all version := by
    intro path hnot hseen
    obtain ⟨refused, hstate, hheld⟩ := huploaded path
    cases refused with
    | true => exact absurd (hheld.mpr rfl) hnot
    | false =>
        obtain ⟨_, hready, hpath⟩ := hstate
        rcases hready with hignored | hlevel
        · rw [hignored] at hseen
          cases hseen
        · exact ⟨_, hpath.symm.trans (View.goal_of_level hlevel hseen)⟩
  exact ⟨fun path => ⟨hsaved path, hend path, fun _ => trivial⟩, rfl, hsaved, hversions, hlevel⟩

/-! ## The whole cycle -/

variable (context choose start) in
/-- A plan made from the views `start`, its downloads done. -/
def PlanReady (plan : SyncPlan) (world : World) : Prop :=
  ∃ base working remote, plan = ⟨(diffManifests base working remote).upload,
      (diffManifests base working remote).download,
      (diffManifests base working remote).conflicts, []⟩ ∧
    (∀ path, Planned context choose path (start path) (decisionAt base working remote path)) ∧
    ∀ path, Here context path
      (Downloaded context (start path) (decisionAt base working remote path)) world

theorem holds_prepareSync (hideal : context.Ideal) {world : World} (hsound : Sound context world)
    (hgoal : ∀ path, (world.view context path).goal context choose path = target path) :
    Holds (quietAll context choose sizes target)
      (fun result after => ∃ plan, result = .ok plan ∧
        PlanReady context choose (world.view context) plan after)
      (prepareSync context.crypto context.ignore) world := by
  rw [prepareSync, holds_bind]
  refine holds_same hgoal (fun _ _ => trivial) fun env hclean _ => ?_
  simp only [handle, hclean.onDevice]
  refine ⟨hsound, fun _ => trivial, ?_⟩
  rw [holds_bind]
  refine (holds_fetchRemoteManifest hsound hgoal).mono ?_
  rintro result fetched ⟨manifest, rfl, hmirrors, hfetched, hview⟩
  have hplanned : ∀ path, Planned context choose path (world.view context path)
      (decisionAt (keep context.ignore world.device.base)
        (keep context.ignore (buildWorkingManifest context.crypto context.ignore env.now
          world.device.folder world.device.base)) (keep context.ignore manifest) path) := by
    intro path
    -- the server has not changed while the manifest was fetched
    have hsame : Mirrors context world.server manifest := by
      intro other
      rw [hmirrors other]
      exact congrArg View.row (hview other)
    exact planned_of_diff hsound hsame env.now path
  simp only [holds_bind, diffLocalAndRemote]
  refine (holds_downloads hideal hgoal hplanned fun path => ⟨hfetched path, hview path⟩).mono ?_
  rintro failures after ⟨rfl, hhere⟩
  exact ⟨_, rfl, _, _, _, rfl, hplanned, hhere⟩

/-- What a completed cycle reports and leaves. -/
structure Completed (context : Context) (sizes : Bool) (target : String → Versions)
    (result : SyncResult) (after : World) : Prop where
  checkpointed : result.checkpointError = none
  clean : sizes = false → result.failures = [] ∧ result.conflicts = []
  sound : Sound context after
  versions : ∀ path, (after.view context path).versions context.crypto = target path
  level : sizes = false → ∀ path, context.ignore.isIgnored path = false →
    ∃ version, target path = .all version

theorem holds_completeSync (hideal : context.Ideal)
    (hgoal : ∀ path, (start path).goal context choose path = target path)
    (hchoose : Decisive choose) {plan : SyncPlan} {world : World}
    (hready : PlanReady context choose start plan world) {resolutions : List ConflictResolution}
    (hanswers : ∀ conflict ∈ plan.conflicts,
      resolutionFor resolutions conflict.path = some (choose conflict.path)) :
    Holds (quietAll context choose sizes target)
      (fun result after => ∃ done, result = .ok done ∧ Completed context sizes target done after)
      (completeSync context.crypto plan resolutions) world := by
  obtain ⟨base, working, remote, rfl, hplanned, hhere⟩ := hready
  -- the uploads of the diff, by path
  have huploads : ∀ path, mine path (diffManifests base working remote).upload =
      (decisionAt base working remote path).upload?.toList := by
    intro path
    have hnodup := nodup_diff_upload base working remote
    cases hdecision : decisionAt base working remote path with
    | upload action =>
        have hpath := decide3_upload_path hdecision
        have hmem : action ∈ (diffManifests base working remote).upload :=
          mem_diff_upload.mpr (by rw [hpath]; exact hdecision)
        rw [← hpath]
        exact mine_of_mem hnodup hmem
    | _ =>
        refine mine_of_not_mem ?_
        rintro action haction rfl
        rw [mem_diff_upload.mp haction] at hdecision
        cases hdecision
  have htracks : ∀ path, Tracks path
      (resolving context choose path (start path) (decisionAt base working remote path))
      (if path ∈ (diffManifests base working remote).conflicts.map Conflict.path then .untouched
        else .settled) ⟨(diffManifests base working remote).upload, []⟩ world := by
    intro path
    refine ⟨false, ⟨rfl, ?_⟩, by simp⟩
    have hpath := hhere path
    rw [huploads path]
    cases hdecision : decisionAt base working remote path with
    | nothing =>
        rw [hdecision] at hpath
        exact ⟨rfl, hpath⟩
    | upload action =>
        rw [hdecision] at hpath
        exact ⟨rfl, hpath⟩
    | download action =>
        rw [hdecision] at hpath
        exact ⟨rfl, hpath⟩
    | conflict found =>
        rw [hdecision] at hpath
        have hmem : path ∈ (diffManifests base working remote).conflicts.map Conflict.path := by
          have hfound := decide3_conflict_path hdecision
          exact List.mem_map.mpr ⟨found, mem_diff_conflicts.mpr (by rw [hfound]; exact hdecision),
            hfound⟩
        simp only [hmem, ↓reduceIte]
        exact ⟨rfl, hpath⟩
  rw [completeSync, holds_bind]
  refine (holds_resolutions hideal hgoal hchoose hplanned hanswers (fun _ hmem => hmem)
    (nodup_diff_conflicts base working remote) htracks).mono ?_
  rintro result resolvedWorld ⟨resolved, rfl, hresolved⟩
  have hdeferred : resolved.deferred = [] := by
    cases hlist : resolved.deferred with
    | nil => rfl
    | cons conflict rest =>
        obtain ⟨deferred, hstate, hflag⟩ := hresolved conflict.path
        have htrue := hflag.mpr (by rw [hlist]; simp)
        rw [hstate.1] at htrue
        cases htrue
  have hstates : ∀ path, uploading context choose sizes target path (start path)
      (mine path resolved.uploads) false resolvedWorld := by
    intro path
    obtain ⟨deferred, hstate, _⟩ := hresolved path
    exact uploading_of_resolving (hgoal path) hchoose (hplanned path) hstate
  simp only [hdeferred, List.map_nil, List.append_nil, List.nil_append, holds_bind]
  refine (holds_uploads hideal hgoal hstates).mono ?_
  rintro outcome uploadedWorld ⟨huploaded, hmild, haccounted⟩
  simp only [hmild, Bool.false_eq_true, ↓reduceIte, holds_bind]
  refine (holds_checkpoint hgoal huploaded).mono ?_
  rintro result after ⟨rfl, hsound, hversions, hlevel⟩
  -- without refusals nothing is held back, so nothing is reported
  have hnone : sizes = false → outcome.holdBack = [] := by
    intro hsizes
    cases hlist : outcome.holdBack with
    | nil => rfl
    | cons path rest =>
        obtain ⟨refused, hstate, hheld⟩ := huploaded path
        have hrefused := hheld.mp (by rw [hlist]; simp)
        subst hrefused
        rw [hstate.2.1] at hsizes
        cases hsizes
  refine ⟨_, rfl, rfl, fun hsizes => ?_, hsound, hversions, fun hsizes path hseen => ?_⟩
  swap
  · exact hlevel path (by simp [hnone hsizes]) hseen
  constructor
  · cases hlist : outcome.failures with
    | nil => rfl
    | cons failure rest =>
        have hmem := haccounted.failures failure (by rw [hlist]; simp)
        rw [hnone hsizes] at hmem
        cases hmem
  · cases hlist : outcome.lateConflicts with
    | nil => rfl
    | cons conflict rest =>
        have hmem := haccounted.lateConflicts conflict (by rw [hlist]; simp)
        rw [hnone hsizes] at hmem
        cases hmem

/-- A cycle that nobody disturbs completes, and every path ends where it was
bound to settle. -/
theorem holds_cycle (hideal : context.Ideal) (hchoose : Decisive choose) {world : World}
    (hsound : Sound context world)
    (hgoal : ∀ path, (world.view context path).goal context choose path = target path) :
    Holds (quietAll context choose sizes target)
      (fun result after => ∃ plan done, result = .ok (plan, done) ∧ plan.failures = [] ∧
        Completed context sizes target done after)
      (cycle context.crypto context.ignore) world := by
  rw [cycle, holds_bind]
  refine (holds_prepareSync hideal hsound hgoal).mono ?_
  rintro result prepared ⟨plan, rfl, hready⟩
  have hpaths : Sound context prepared ∧
      ∀ path, (prepared.view context path).goal context choose path = target path := by
    obtain ⟨base, working, remote, _, hplanned, hhere⟩ := hready
    refine ⟨fun path => (hhere path).1, fun path => ?_⟩
    obtain ⟨_, hview⟩ := hhere path
    cases hdecision : decisionAt base working remote path with
    | download action =>
        have hpath := hplanned path
        rw [hdecision] at hview hpath
        cases hpath with
        | download _ _ hseen _ hpull _ =>
          rw [hgoal path] at hpull
          exact targets_pulled hseen hpull _ hview
    | _ =>
        rw [hdecision] at hview
        exact targets_start (hgoal path) _ hview
  simp only [holds_bind]
  refine holds_same hpaths.2 (fun _ _ => trivial) fun env hclean hanswers => ?_
  refine ⟨hpaths.1, fun _ => rfl, ?_⟩
  have hfailures : plan.failures = [] := by
    obtain ⟨_, _, _, rfl, _⟩ := hready
    rfl
  have hchoices : ∀ conflict ∈ plan.conflicts,
      resolutionFor env.answers conflict.path = some (choose conflict.path) := by
    intro conflict hmem
    simp only [answersBy, handle, List.all_eq_true] at hanswers
    exact of_decide_eq_true (hanswers conflict hmem)
  refine (holds_completeSync hideal hgoal hchoose hready hchoices).mono ?_
  rintro result after ⟨done, rfl, hcompleted⟩
  exact ⟨plan, done, rfl, hfailures, hcompleted⟩

end Stages

end ObSink.Engine
