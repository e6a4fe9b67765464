import ObSink.Engine.Batches

/-! # One path through the resolutions

How a plan's conflicts are resolved, followed on one path: a conflict on the
path itself, and the copies other conflicts may leave there.
-/

namespace ObSink.Engine

open Prog (Setting Holds Within perform holds_bind holds_perform holds_pure within_bind within_pure
  within_perform within_trivial)

/-- How far the conflict on the path has come. -/
inductive Phase where
  | untouched
  | fetched (blob : Bytes)
  | settled

/-- What the engine does about a conflict, given the answers. -/
def choiceOf (resolutions : List ConflictResolution) (conflict : Conflict) :
    Option ConflictResolutionChoice :=
  (resolutionFor resolutions conflict.path).map fun choice => effectiveChoice choice conflict

/-- The upload of a conflict copy. -/
def copyUpload (crypto : Crypto) (path : String) (file : StoredFile) : SyncAction where
  path := path
  kind := .upload
  localEntry := some (walkEntry crypto file)
  remoteEntry := none

section Rules

variable {World : Type} (setting : Setting Effect Effect.Reply World) (path : String)

/-- How the resolutions take a path from one state to the next: its phase, its
uploads so far, and whether it was deferred. An error ends the cycle. -/
structure AnswerRule (crypto : Crypto) (resolutions : List ConflictResolution)
    (conflicts : List Conflict)
    (state : Phase → List SyncAction → Bool → World → Prop) (failed : World → Prop) : Prop where
  stable : ∀ phase uploads deferred, Stable setting path (state phase uploads deferred)
  missing : ∀ conflict ∈ conflicts, ∀ uploads deferred world, conflict.path = path →
    choiceOf resolutions conflict = none → state .untouched uploads deferred world → failed world
  defer : ∀ conflict ∈ conflicts, ∀ uploads deferred world, conflict.path = path →
    choiceOf resolutions conflict = some .defer → state .untouched uploads deferred world →
    state .settled uploads true world
  keepLocal : ∀ conflict ∈ conflicts, ∀ uploads deferred world, conflict.path = path →
    choiceOf resolutions conflict = some .keepLocal → state .untouched uploads deferred world →
    state .settled (uploads ++ [conflictToUpload conflict]) deferred world
  dropLocal : ∀ conflict ∈ conflicts, ∀ uploads deferred, conflict.path = path →
    choiceOf resolutions conflict = some .keepRemote → conflict.remoteEntry.deleted = true →
    setting.Triple (.deleteLocalFile path) (state .untouched uploads deferred)
      (orFailed (fun _ => state .settled uploads deferred) failed)
  get : ∀ conflict ∈ conflicts, ∀ uploads deferred, conflict.path = path →
    (choiceOf resolutions conflict = some .keepRemote ∧ conflict.remoteEntry.deleted = false) ∨
      choiceOf resolutions conflict = some .keepBoth →
    setting.Triple (.getFile path) (state .untouched uploads deferred)
      (orFailed (fun blob => state (.fetched blob) uploads deferred) failed)
  giveUp : ∀ conflict ∈ conflicts, ∀ blob uploads deferred world, conflict.path = path →
    (∃ error, crypto.decrypt blob = .error error) ∨
      choiceOf resolutions conflict = some .keepBoth →
    state (.fetched blob) uploads deferred world → failed world
  keepRemote : ∀ conflict ∈ conflicts, ∀ blob plaintext uploads deferred, conflict.path = path →
    choiceOf resolutions conflict = some .keepRemote → crypto.decrypt blob = .ok plaintext →
    setting.Triple (.writeFile path plaintext) (state (.fetched blob) uploads deferred)
      (orFailed (fun _ => state .settled uploads deferred) failed)
  keepBoth : ∀ conflict ∈ conflicts, ∀ blob uploads deferred world, conflict.path = path →
    choiceOf resolutions conflict = some .keepBoth →
    state (.fetched blob) uploads deferred world →
    state .settled (uploads ++ [conflictToUpload conflict]) deferred world
  copyWrite : ∀ conflict ∈ conflicts, ∀ phase plaintext uploads deferred,
    choiceOf resolutions conflict = some .keepBoth → conflictCopyPath conflict.path = path →
    setting.Triple (.writeFile path plaintext) (state phase uploads deferred)
      (orFailed (fun _ => state phase uploads deferred) failed)
  copyStat : ∀ conflict ∈ conflicts, ∀ phase uploads deferred,
    choiceOf resolutions conflict = some .keepBoth → conflictCopyPath conflict.path = path →
    setting.Triple (.statFile path) (state phase uploads deferred)
      (orFailed (fun file =>
        state phase (uploads ++ [copyUpload crypto path file]) deferred) failed)

variable {setting path}

variable {crypto : Crypto} {resolutions : List ConflictResolution} {conflicts : List Conflict}
  {state : Phase → List SyncAction → Bool → World → Prop} {failed : World → Prop}

/-- What the resolutions so far say about the path. -/
def Tracks (path : String) (state : Phase → List SyncAction → Bool → World → Prop) (phase : Phase)
    (resolved : Resolved) (world : World) : Prop :=
  ∃ deferred, state phase (mine path resolved.uploads) deferred world ∧
    (deferred = true ↔ path ∈ resolved.deferred.map Conflict.path)

theorem AnswerRule.stable_tracks
    (hrule : AnswerRule setting path crypto resolutions conflicts state failed)
    (phase : Phase) (resolved : Resolved) :
    Stable setting path (Tracks path state phase resolved) :=
  Stable.exists fun deferred => (hrule.stable phase _ deferred).and_fact _

/-- A conflict elsewhere that leaves no copy here. -/
theorem applyResolution_within {conflict : Conflict} (hother : conflict.path ≠ path)
    (hcopy : choiceOf resolutions conflict = some .keepBoth →
      conflictCopyPath conflict.path ≠ path) (resolved : Resolved) :
    Within (Effect.Elsewhere path) (fun result => ∀ next, result = .ok next →
      mine path next.uploads = mine path resolved.uploads ∧
      (path ∈ next.deferred.map Conflict.path ↔ path ∈ resolved.deferred.map Conflict.path))
      (applyResolution crypto resolutions resolved conflict) := by
  unfold choiceOf at hcopy
  unfold applyResolution
  cases hchoice : resolutionFor resolutions conflict.path with
  | none => exact fun next hnext => by cases hnext
  | some choice =>
      rw [hchoice, Option.map_some, Option.some.injEq] at hcopy
      simp only
      split
      next =>
        intro next hnext
        obtain rfl := Except.ok.inj hnext
        simp [Ne.symm hother]
      next =>
        intro next hnext
        obtain rfl := Except.ok.inj hnext
        simp [mine_append,
          mine_cons_of_ne (show (conflictToUpload conflict).path ≠ path from hother)]
      next =>
        rw [within_bind]
        -- keepRemote works on the path of the conflict alone
        have hkeep : Within (Effect.Elsewhere path) (fun _ => True)
            (applyKeepRemote crypto conflict) := by
          unfold applyKeepRemote fetchTo decryptAndWrite
          split
          next => exact ⟨hother, fun reply => trivial⟩
          next =>
            rw [within_bind, within_perform]
            refine ⟨hother, fun reply => ?_⟩
            cases reply with
            | error error => trivial
            | ok blob =>
                simp only
                split
                next => trivial
                next => exact ⟨hother, fun reply => trivial⟩
        refine hkeep.mono ?_
        rintro (error | value) _
        · exact fun next hnext => by cases hnext
        · intro next hnext
          obtain rfl := Except.ok.inj hnext
          simp
      next hboth =>
        -- keepBoth works on the path of the copy as well
        have hcopyPath := hcopy hboth
        have hwrite : Within (Effect.Elsewhere path)
            (fun result => ∀ copied, result = .ok copied → copied = conflictCopyPath conflict.path)
            (writeConflictCopy crypto conflict) := by
          unfold writeConflictCopy fetchTo decryptAndWrite
          simp only [within_bind, within_perform]
          refine ⟨hother, fun reply => ?_⟩
          cases reply with
          | error error => exact fun copied hcopied => by cases hcopied
          | ok blob =>
              simp only
              split
              next => exact fun copied hcopied => by cases hcopied
              next =>
                refine ⟨hcopyPath, fun reply => ?_⟩
                cases reply with
                | error error => exact fun copied hcopied => by cases hcopied
                | ok value =>
                    intro copied hcopied
                    exact (Except.ok.inj hcopied).symm
        rw [within_bind]
        refine hwrite.mono ?_
        rintro (error | copied) hcopied
        · exact fun next hnext => by cases hnext
        · obtain rfl := hcopied copied rfl
          simp only [buildUploadActionForPath, within_bind, within_perform]
          refine ⟨hcopyPath, fun reply => ?_⟩
          cases reply with
          | error error => exact fun next hnext => by cases hnext
          | ok file =>
              intro next hnext
              obtain rfl := Except.ok.inj hnext
              simp only [mine_append, and_true]
              rw [mine_cons_of_ne (show (conflictToUpload conflict).path ≠ path from hother),
                mine_cons_of_ne hcopyPath]
              simp

/-- The resolution of the conflict on the path itself. -/
theorem AnswerRule.holds_own
    (hrule : AnswerRule setting path crypto resolutions conflicts state failed)
    {conflict : Conflict} (hmem : conflict ∈ conflicts) (hpath : conflict.path = path)
    {resolved : Resolved} {world : World} (htracks : Tracks path state .untouched resolved world) :
    Holds setting (orFailed (fun next => Tracks path state .settled next) failed)
      (applyResolution crypto resolutions resolved conflict) world := by
  subst hpath
  obtain ⟨deferred, hstate, hdeferred⟩ := htracks
  have hstable := fun phase uploads => (hrule.stable phase uploads deferred).rely
  unfold applyResolution
  cases hanswer : resolutionFor resolutions conflict.path with
  | none =>
      exact hrule.missing conflict hmem _ deferred world rfl (by simp [choiceOf, hanswer]) hstate
  | some choice =>
      have hchoice : choiceOf resolutions conflict = some (effectiveChoice choice conflict) := by
        simp [choiceOf, hanswer]
      simp only
      split
      next heq =>
        rw [heq] at hchoice
        exact ⟨true, hrule.defer conflict hmem _ deferred world rfl hchoice hstate, by simp⟩
      next heq =>
        rw [heq] at hchoice
        refine ⟨deferred, ?_, hdeferred⟩
        rw [mine_append,
          mine_cons_self (show (conflictToUpload conflict).path = conflict.path from rfl)]
        exact hrule.keepLocal conflict hmem _ deferred world rfl hchoice hstate
      next heq =>
        rw [heq] at hchoice
        rw [holds_bind]
        unfold applyKeepRemote fetchTo decryptAndWrite
        split
        next hdeleted =>
          refine ((hrule.dropLocal conflict hmem _ deferred rfl hchoice hdeleted).holds
            (hstable _ _) hstate).mono ?_
          rintro (error | value) world hreply
          · exact hreply
          · exact ⟨deferred, hreply, hdeferred⟩
        next hlive =>
          rw [holds_bind]
          refine ((hrule.get conflict hmem _ deferred rfl
            (Or.inl ⟨hchoice, by simpa using hlive⟩)).holds (hstable _ _) hstate).mono ?_
          rintro (error | blob) world hreply
          · exact hreply
          · simp only
            split
            next error hdecrypt =>
              exact hrule.giveUp conflict hmem blob _ deferred world rfl
                (Or.inl ⟨error, hdecrypt⟩) hreply
            next plaintext hdecrypt =>
              refine ((hrule.keepRemote conflict hmem blob plaintext _ deferred rfl hchoice
                hdecrypt).holds (hstable _ _) hreply).mono ?_
              rintro (error | value) world hreply
              · exact hreply
              · exact ⟨deferred, hreply, hdeferred⟩
      next heq =>
        rw [heq] at hchoice
        have hcopy : conflictCopyPath conflict.path ≠ conflict.path := conflictCopyPath_ne _
        have hgiveUp : ∀ blob world,
            state (.fetched blob) (mine conflict.path resolved.uploads) deferred world →
            failed world :=
          fun blob world => hrule.giveUp conflict hmem blob _ deferred world rfl (Or.inr hchoice)
        rw [holds_bind]
        unfold writeConflictCopy fetchTo decryptAndWrite
        simp only [holds_bind]
        refine ((hrule.get conflict hmem _ deferred rfl (Or.inr hchoice)).holds
          (hstable _ _) hstate).mono ?_
        rintro (error | blob) world hreply
        · exact hreply
        · simp only
          split
          next error hdecrypt => exact hgiveUp blob world hreply
          next plaintext hdecrypt =>
            -- the copy goes elsewhere
            refine ((hrule.stable _ _ deferred).perform
              (show (Effect.writeFile (conflictCopyPath conflict.path) plaintext).Elsewhere _ from
                hcopy) hreply).mono ?_
            rintro (error | value) world hreply
            · exact hgiveUp blob world hreply
            · simp only [holds_pure, buildUploadActionForPath, holds_bind]
              refine ((hrule.stable _ _ deferred).perform
                (show (Effect.statFile (conflictCopyPath conflict.path)).Elsewhere _ from
                  hcopy) hreply).mono ?_
              rintro (error | file) world hreply
              · exact hgiveUp blob world hreply
              · refine ⟨deferred, ?_, hdeferred⟩
                rw [mine_append,
                  mine_cons_self (show (conflictToUpload conflict).path = conflict.path from rfl),
                  mine_cons_of_ne hcopy]
                exact hrule.keepBoth conflict hmem blob _ deferred world rfl hchoice hreply

/-- A conflict elsewhere that leaves its copy here. -/
theorem AnswerRule.holds_copy
    (hrule : AnswerRule setting path crypto resolutions conflicts state failed)
    {conflict : Conflict} (hmem : conflict ∈ conflicts) (hother : conflict.path ≠ path)
    (hboth : choiceOf resolutions conflict = some .keepBoth)
    (hcopy : conflictCopyPath conflict.path = path) {phase : Phase} {resolved : Resolved}
    {world : World} (htracks : Tracks path state phase resolved world) :
    Holds setting (orFailed (fun next => Tracks path state phase next)
      (fun world => failed world ∨ Tracks path state phase resolved world))
      (applyResolution crypto resolutions resolved conflict) world := by
  have hrely := (hrule.stable_tracks phase resolved).rely
  unfold applyResolution
  cases hanswer : resolutionFor resolutions conflict.path with
  | none => simp [choiceOf, hanswer] at hboth
  | some choice =>
      have hchoice : effectiveChoice choice conflict = .keepBoth := by
        simpa [choiceOf, hanswer] using hboth
      simp only [hchoice]
      rw [holds_bind]
      unfold writeConflictCopy fetchTo decryptAndWrite
      simp only [holds_bind]
      refine ((hrule.stable_tracks phase resolved).perform
        (show (Effect.getFile conflict.path).Elsewhere path from hother) htracks).mono ?_
      rintro (error | blob) world htracks
      · exact Or.inr htracks
      · simp only
        split
        next error hdecrypt => exact Or.inr htracks
        next plaintext hdecrypt =>
          obtain ⟨deferred, hstate, hdeferred⟩ := htracks
          rw [hcopy]
          refine ((hrule.copyWrite conflict hmem phase plaintext _ deferred hboth hcopy).holds
            (hrule.stable _ _ deferred).rely hstate).mono ?_
          rintro (error | value) world hreply
          · exact Or.inl hreply
          · simp only [holds_pure, buildUploadActionForPath, holds_bind]
            refine ((hrule.copyStat conflict hmem phase _ deferred hboth hcopy).holds
              (hrule.stable _ _ deferred).rely hreply).mono ?_
            rintro (error | file) world hreply
            · exact Or.inl hreply
            · refine ⟨deferred, ?_, hdeferred⟩
              rw [mine_append, mine_cons_of_ne (show (conflictToUpload conflict).path ≠ path from
                hother)]
              have hmine : mine path [copyUpload crypto path file] =
                  [copyUpload crypto path file] :=
                mine_cons_self rfl []
              exact hmine.symm ▸ hreply

/-- A conflict elsewhere. -/
theorem AnswerRule.holds_other
    (hrule : AnswerRule setting path crypto resolutions conflicts state failed)
    {conflict : Conflict} (hmem : conflict ∈ conflicts) (hother : conflict.path ≠ path)
    {phase : Phase} {resolved : Resolved} {world : World}
    (htracks : Tracks path state phase resolved world) :
    Holds setting (orFailed (fun next => Tracks path state phase next)
      (fun world => failed world ∨ Tracks path state phase resolved world))
      (applyResolution crypto resolutions resolved conflict) world := by
  by_cases hcopy : choiceOf resolutions conflict = some .keepBoth ∧
      conflictCopyPath conflict.path = path
  · exact hrule.holds_copy hmem hother hcopy.1 hcopy.2 htracks
  · refine ((hrule.stable_tracks phase resolved).holds (applyResolution_within hother
      (fun hboth hpath => hcopy ⟨hboth, hpath⟩) resolved) htracks).mono ?_
    rintro (error | next) world ⟨htracks, hsame⟩
    · exact Or.inr htracks
    · obtain ⟨hmine, hdeferred⟩ := hsame next rfl
      obtain ⟨deferred, hstate, hold⟩ := htracks
      exact ⟨deferred, hmine ▸ hstate, hold.trans hdeferred.symm⟩


end Rules

/-! ## The operations of the resolutions -/

theorem fetchTo_blind (crypto : Crypto) (path target : String) :
    Within Effect.Blind (fun _ => True) (fetchTo crypto path target) := by
  rw [fetchTo, within_bind, within_perform]
  refine ⟨trivial, fun reply => ?_⟩
  cases reply with
  | error error => trivial
  | ok blob =>
      simp only [decryptAndWrite]
      split
      next => trivial
      next => exact ⟨trivial, fun _ => trivial⟩

/-- What an answer to a conflict may add: an upload of its path or, with both
sides present, of its copy, or the conflict to those deferred. -/
structure Resolved.Adds (conflict : Conflict) (resolved next : Resolved) : Prop where
  uploads : ∀ action ∈ next.uploads, action ∈ resolved.uploads ∨ action.path = conflict.path ∨
    conflict.localEntry.deleted = false ∧ conflict.remoteEntry.deleted = false ∧
      action.path = conflictCopyPath conflict.path
  deferred : ∀ other ∈ next.deferred, other ∈ resolved.deferred ∨ other = conflict

theorem applyResolution_blind (crypto : Crypto) (resolutions : List ConflictResolution)
    (resolved : Resolved) (conflict : Conflict) :
    Within Effect.Blind (fun result => ∀ next, result = .ok next → resolved.Adds conflict next)
      (applyResolution crypto resolutions resolved conflict) := by
  have hsame : ∀ next, (.ok resolved : Except SyncEngineError Resolved) = .ok next →
      resolved.Adds conflict next := by
    intro next hnext
    obtain rfl := Except.ok.inj hnext
    exact ⟨fun _ hmem => Or.inl hmem, fun _ hmem => Or.inl hmem⟩
  have hfailed : ∀ (error : SyncEngineError) (next : Resolved), Except.error error = .ok next →
      resolved.Adds conflict next := fun _ _ hnext => by cases hnext
  unfold applyResolution
  cases resolutionFor resolutions conflict.path with
  | none => exact hfailed _
  | some choice =>
      simp only
      split
      next =>
        intro next hnext
        obtain rfl := Except.ok.inj hnext
        refine ⟨fun _ hmem => Or.inl hmem, fun other hmem => ?_⟩
        exact (List.mem_append.mp hmem).imp id List.mem_singleton.mp
      next =>
        intro next hnext
        obtain rfl := Except.ok.inj hnext
        refine ⟨fun action hmem => ?_, fun _ hmem => Or.inl hmem⟩
        refine (List.mem_append.mp hmem).imp id fun hnew => Or.inl ?_
        rw [List.mem_singleton.mp hnew]
        rfl
      next =>
        rw [within_bind]
        have hkeep : Within Effect.Blind (fun _ => True) (applyKeepRemote crypto conflict) := by
          unfold applyKeepRemote
          split
          next => exact ⟨trivial, fun _ => trivial⟩
          next => exact fetchTo_blind crypto _ _
        refine hkeep.mono ?_
        rintro (error | value) _
        · exact hfailed error
        · exact hsame
      next hchoice =>
        -- a copy is written only when both sides are there
        have hlive : conflict.localEntry.deleted = false ∧
            conflict.remoteEntry.deleted = false := by
          cases choice <;> simp only [effectiveChoice] at hchoice
          · cases hchoice
          · cases hchoice
          · split at hchoice
            next => cases hchoice
            next hremote =>
              split at hchoice
              next => cases hchoice
              next hlocal => exact ⟨by simpa using hlocal, by simpa using hremote⟩
          · cases hchoice
        simp only [writeConflictCopy, within_bind]
        refine (fetchTo_blind crypto _ _).mono ?_
        rintro (error | value) _
        · exact hfailed error
        · simp only [within_pure, buildUploadActionForPath, within_bind, within_perform]
          refine ⟨trivial, fun reply => ?_⟩
          cases reply with
          | error error => exact hfailed error
          | ok file =>
              intro next hnext
              obtain rfl := Except.ok.inj hnext
              refine ⟨fun action hmem => ?_, fun _ hmem => Or.inl hmem⟩
              refine (List.mem_append.mp hmem).imp id fun hnew => ?_
              rcases List.mem_cons.mp hnew with rfl | hcopy
              · exact Or.inl rfl
              · rw [List.mem_singleton.mp hcopy]
                exact Or.inr ⟨hlive.1, hlive.2, rfl⟩

/-- What the answers to several conflicts add, all in all. -/
structure Resolved.AddsAll (conflicts : List Conflict) (resolved final : Resolved) : Prop where
  uploads : ∀ action ∈ final.uploads, action ∈ resolved.uploads ∨
    ∃ conflict ∈ conflicts, action.path = conflict.path ∨
      conflict.localEntry.deleted = false ∧ conflict.remoteEntry.deleted = false ∧
        action.path = conflictCopyPath conflict.path
  deferred : ∀ other ∈ final.deferred, other ∈ resolved.deferred ∨ other ∈ conflicts

theorem applyResolutions_blind (crypto : Crypto) (resolutions : List ConflictResolution)
    (conflicts : List Conflict) (resolved : Resolved) :
    Within Effect.Blind (fun result =>
      ∀ final, result = .ok final → resolved.AddsAll conflicts final)
      (applyResolutions crypto resolutions conflicts resolved) := by
  induction conflicts generalizing resolved with
  | nil =>
      intro final hfinal
      obtain rfl := Except.ok.inj hfinal
      exact ⟨fun _ hmem => Or.inl hmem, fun _ hmem => Or.inl hmem⟩
  | cons conflict rest ih =>
      rw [applyResolutions, within_bind]
      refine (applyResolution_blind crypto resolutions resolved conflict).mono ?_
      rintro (error | next) hadds
      · exact fun final hfinal => by cases hfinal
      · have hadds := hadds next rfl
        refine (ih next).mono ?_
        intro result hresult final hfinal
        have hrest := hresult final hfinal
        refine ⟨fun action hmem => ?_, fun other hmem => ?_⟩
        · rcases hrest.uploads action hmem with hnext | ⟨later, hlater, hcases⟩
          · exact (hadds.uploads action hnext).imp id fun hown => ⟨conflict, by simp, hown⟩
          · exact Or.inr ⟨later, List.mem_cons_of_mem _ hlater, hcases⟩
        · rcases hrest.deferred other hmem with hnext | hlater
          · exact (hadds.deferred other hnext).imp id fun heq => by simp [heq]
          · exact Or.inr (List.mem_cons_of_mem _ hlater)

/-- What was deferred stays so, and a deferred conflict is. -/
theorem applyResolution_deferred (crypto : Crypto) (resolutions : List ConflictResolution)
    (resolved : Resolved) (conflict : Conflict) :
    Within (fun _ => True) (fun result => ∀ next, result = .ok next →
        resolved.deferred ⊆ next.deferred ∧
          (choiceOf resolutions conflict = some .defer → conflict ∈ next.deferred))
      (applyResolution crypto resolutions resolved conflict) := by
  unfold applyResolution choiceOf
  cases resolutionFor resolutions conflict.path with
  | none => exact fun next hnext => by cases hnext
  | some choice =>
      simp only [Option.map_some, Option.some.injEq]
      split
      next hchoice =>
        intro next hnext
        obtain rfl := Except.ok.inj hnext
        exact ⟨List.subset_append_left _ _, fun _ => List.mem_append_right _ (by simp)⟩
      next hchoice =>
        intro next hnext
        obtain rfl := Except.ok.inj hnext
        exact ⟨List.Subset.refl _, fun hdefer => by simp [hchoice] at hdefer⟩
      next hchoice =>
        rw [within_bind]
        refine (within_trivial _).mono ?_
        rintro (error | value) _ next hnext
        · cases hnext
        · obtain rfl := Except.ok.inj hnext
          exact ⟨List.Subset.refl _, fun hdefer => by simp [hchoice] at hdefer⟩
      next hchoice =>
        rw [within_bind]
        refine (within_trivial _).mono ?_
        rintro (error | copy) _
        · exact fun next hnext => by cases hnext
        · simp only [within_bind]
          refine (within_trivial _).mono ?_
          rintro (error | upload) _ next hnext
          · cases hnext
          · obtain rfl := Except.ok.inj hnext
            exact ⟨List.Subset.refl _, fun hdefer => by simp [hchoice] at hdefer⟩

theorem applyResolutions_deferred (crypto : Crypto) (resolutions : List ConflictResolution)
    (conflicts : List Conflict) (resolved : Resolved) :
    Within (fun _ => True) (fun result => ∀ final, result = .ok final →
        resolved.deferred ⊆ final.deferred ∧ ∀ conflict ∈ conflicts,
          choiceOf resolutions conflict = some .defer → conflict ∈ final.deferred)
      (applyResolutions crypto resolutions conflicts resolved) := by
  induction conflicts generalizing resolved with
  | nil =>
      intro final hfinal
      obtain rfl := Except.ok.inj hfinal
      exact ⟨List.Subset.refl _, fun conflict hmem => by cases hmem⟩
  | cons conflict rest ih =>
      rw [applyResolutions, within_bind]
      refine (applyResolution_deferred crypto resolutions resolved conflict).mono ?_
      rintro (error | next) hstep
      · exact fun final hfinal => by cases hfinal
      · obtain ⟨hkeeps, hdeferred⟩ := hstep next rfl
        refine (ih next).mono ?_
        intro result hresult final hfinal
        obtain ⟨hkeepsRest, hrest⟩ := hresult final hfinal
        refine ⟨List.Subset.trans hkeeps hkeepsRest, ?_⟩
        rintro other (_ | ⟨_, hmem⟩) hdefer
        · exact hkeepsRest (hdeferred hdefer)
        · exact hrest other hmem hdefer

end ObSink.Engine
