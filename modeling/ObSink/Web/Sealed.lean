import ObSink.Engine.Sealed
import ObSink.Web.Cycle

/-! # The hash that goes with a content, in the browser

The browser puts its batches together as the native engine does and sends the
hash of the plan with what it reads then. Of several answers to a conflict it
takes the first, where the native engine takes the last; and when a conflict
cannot be resolved it goes on with the next one.
-/

namespace ObSink.Web

open Engine
open Prog (Holds Within perform holds_bind holds_pure within_bind within_pure within_perform)

variable {context : Context} {cycle : Cycle} {path : String}

/-! ## Batches -/

theorem bearerCall_within {allowed : Effect → Prop} {α : Type}
    {action : Eff (Except CommandError α)} (hwithin : Within allowed (fun _ => True) action)
    (signedIn : Bool) : Within allowed (fun _ => True) (bearerCall signedIn action) := by
  unfold bearerCall
  cases signedIn with
  | false => trivial
  | true =>
      simp only [if_true, within_bind]
      apply hwithin.mono
      intro result _
      cases result with
      | ok value => trivial
      | error error => trivial

theorem batch_sends (cycle : Cycle) (ops : List BatchOp) :
    Within (Effect.Sends ops) (fun _ => True) (batch cycle ops) := by
  rw [batch, within_bind, within_perform]
  refine ⟨trivial, ?_⟩
  intro sent
  cases sent with
  | error error => trivial
  | ok value =>
      simp only [within_bind]
      apply (applyOperations_sends (List.Subset.refl ops)).mono
      intro answer _
      refine ⟨trivial, ?_⟩
      intro received
      cases received with
      | error error => trivial
      | ok value =>
          cases answer with
          | error error => trivial
          | ok results =>
              refine ⟨trivial, ?_⟩
              intro read
              cases read with
              | error error => trivial
              | ok value =>
                  simp only
                  split <;> trivial

/-- A put with the recorded hash, or with that of what was read. -/
theorem rightOp_of_action (hkeys : cycle.keys = context.crypto) (hideal : context.crypto.Ideal)
    {action : SyncAction} {content : Bytes} {before after : World}
    (hperform : Performs context (fun _ => True) (.sealFile action.path) before (.ok content) after)
    (hstands : action.path = path →
      HashStands context.crypto before.device.folder[path]? (sentHash action)) :
    RightOp context.crypto path (.put action.path (parentHash action)
      ((action.localEntry.map FileEntry.hash).getD (sealedHash cycle content)) content) := by
  apply rightOp_of_sealed hideal _ hperform
  intro hpath file hfile
  cases hentry : action.localEntry with
  | some entry =>
      have hrecorded := hstands hpath file hfile
      rwa [sentHash, hentry] at hrecorded
  | none =>
      obtain ⟨found, nonce, hfound, rfl⟩ := sealed_cases hperform
      rw [hpath, hfile] at hfound
      obtain rfl := Option.some.inj hfound
      simp [sealedHash, hkeys, hideal.decrypt_encrypt]

/-- The members of a batch, read while the file is as it was hashed. -/
theorem holds_prepareBatch_right (hkeys : cycle.keys = context.crypto)
    (hideal : context.crypto.Ideal) {actions : List SyncAction} {due reads : Nat}
    {file? : Option StoredFile} (hhashes : HashesStand context.crypto path file? actions)
    (hdue : reads + dueReads path actions ≤ due) (uploaded : Uploaded) {state : World × Nat}
    (hawaits : Awaits path due file? reads state) :
    Holds (beside context path due (PutsMatch context.crypto path))
      (fun result after => Awaits path due file? (reads + dueReads path actions) after ∧
        ∀ op ∈ result.1.map Prod.snd, RightOp context.crypto path op)
      (prepareBatch cycle actions uploaded) state := by
  induction actions generalizing uploaded reads state with
  | nil => exact ⟨hawaits, by simp⟩
  | cons action rest ih =>
      have hrest : HashesStand context.crypto path file? rest :=
        fun later hlater => hhashes later (List.mem_cons_of_mem _ hlater)
      rw [dueReads_cons] at hdue ⊢
      rw [prepareBatch]
      cases hkind : action.kind with
      | download =>
          simp only [hkind, reduceCtorEq, if_false, Nat.zero_add] at hdue ⊢
          exact ih hrest hdue _ hawaits
      | deleteLocal =>
          simp only [hkind, reduceCtorEq, if_false, Nat.zero_add] at hdue ⊢
          exact ih hrest hdue _ hawaits
      | deleteRemote =>
          simp only [hkind, reduceCtorEq, if_false, Nat.zero_add] at hdue ⊢
          rw [holds_bind]
          apply (ih hrest hdue _ hawaits).mono
          intro result after hresult
          refine ⟨hresult.1, ?_⟩
          intro op hop
          rcases List.mem_cons.mp hop with rfl | hlater
          · intro parentHash contentHash content heq
            cases heq
          · exact hresult.2 op hlater
      | upload =>
          simp only [hkind, if_true] at hdue ⊢
          rw [holds_bind]
          -- the one read of the path: the file still stands as it was hashed
          rintro before ⟨hsame, hrely⟩ reply after ⟨hperform, hcount⟩
          have hbefore := hawaits.rely hsame hrely
          have hafter := hbefore.untouched
            (show ¬ (Effect.sealFile action.path).Touches path from id) hperform hcount
          rw [← Nat.add_assoc] at hdue ⊢
          refine ⟨putsMatch_of_ne (by simp) before.1 reply after.1, ?_⟩
          cases reply with
          | error error => exact ih hrest hdue _ hafter
          | ok content =>
              change Holds _ _ (prepareBatch cycle rest uploaded >>= _) after
              rw [holds_bind]
              apply (ih hrest hdue _ hafter).mono
              intro result later hresult
              refine ⟨hresult.1, ?_⟩
              intro op hop
              rcases List.mem_cons.mp hop with rfl | hlater
              · apply rightOp_of_action hkeys hideal hperform
                intro hpath
                have hread : (Effect.sealFile action.path).reads path = 1 := if_pos hpath
                have hstanding : before.1.device.folder[path]? = file? :=
                  hbefore.standing (by omega)
                rw [hstanding]
                exact hhashes action List.mem_cons_self hpath hkind
              · exact hresult.2 op hlater

/-- One batch, or none. -/
theorem holds_runBatch_right (hkeys : cycle.keys = context.crypto)
    (hideal : context.crypto.Ideal) {actions : List SyncAction} {due reads : Nat}
    {file? : Option StoredFile} (hhashes : HashesStand context.crypto path file? actions)
    (hdue : reads + dueReads path actions ≤ due) (uploaded : Uploaded) (signedIn : Bool)
    {state : World × Nat} (hawaits : Awaits path due file? reads state) :
    Holds (beside context path due (PutsMatch context.crypto path))
      (fun _ after => Awaits path due file? (reads + dueReads path actions) after)
      (runBatch cycle actions uploaded signedIn) state := by
  rw [runBatch, holds_bind]
  apply (holds_prepareBatch_right hkeys hideal hhashes hdue uploaded hawaits).mono
  intro prepared after hprepared
  obtain ⟨members, accounted⟩ := prepared
  simp only
  split
  next => exact hprepared.1
  next =>
    rw [holds_bind]
    have hsends := bearerCall_within (batch_sends cycle (members.map Prod.snd)) signedIn
    apply (holds_sends_right hprepared.2 hsends hprepared.1).mono
    intro answer later hlater
    obtain ⟨result, signedIn⟩ := answer
    cases result with
    | error error => exact hlater.1
    | ok results => exact hlater.1

/-- All batches, each read while the file is as it was hashed. -/
theorem holds_runUploads_right (hkeys : cycle.keys = context.crypto)
    (hideal : context.crypto.Ideal) {uploads : List SyncAction} {due reads : Nat}
    {file? : Option StoredFile} (hhashes : HashesStand context.crypto path file? uploads)
    (hdue : reads + dueReads path uploads ≤ due) (signedIn : Bool) {state : World × Nat}
    (hawaits : Awaits path due file? reads state) :
    Holds (beside context path due (PutsMatch context.crypto path)) (fun _ _ => True)
      (runUploads cycle uploads signedIn) state := by
  have hflatten : (batches uploads).flatten = uploads := by
    rw [batches, ← List.flatMap_def]
    exact chunkUploads_flatMap uploads _
  have hloop : ∀ (groups : List (List SyncAction)) (uploaded : Uploaded) (signedIn : Bool)
      (reads : Nat) (state : World × Nat), groups.flatten ⊆ uploads →
      reads + dueReads path groups.flatten ≤ due → Awaits path due file? reads state →
      Holds (beside context path due (PutsMatch context.crypto path)) (fun _ _ => True)
        (runBatches cycle groups uploaded signedIn) state := by
    intro groups
    induction groups with
    | nil => exact fun _ _ _ _ _ _ _ => trivial
    | cons actions rest ih =>
        intro uploaded signedIn reads state hgroups hdue hawaits
        rw [List.flatten_cons, List.append_subset] at hgroups
        rw [List.flatten_cons, dueReads_append, ← Nat.add_assoc] at hdue
        have hactions : HashesStand context.crypto path file? actions :=
          fun action haction => hhashes action (hgroups.1 haction)
        rw [runBatches, holds_bind]
        apply (holds_runBatch_right hkeys hideal hactions (Nat.le_of_add_right_le hdue) uploaded
          signedIn hawaits).mono
        intro result after hafter
        obtain ⟨done, stop, signedIn⟩ := result
        cases stop with
        | true => trivial
        | false => exact ih done signedIn _ after hgroups.2 hdue hafter
  exact hloop (batches uploads) ⟨[], [], []⟩ signedIn reads state
    (by rw [hflatten]; exact List.Subset.refl _) (by rwa [hflatten]) hawaits

/-! ## Resolutions -/

/-- The first answer is the last one read backwards. -/
theorem resolutionFor_reverse (resolutions : List ConflictResolution) (conflictPath : String) :
    resolutionFor resolutions.reverse conflictPath =
      (resolutions.find? fun resolution => resolution.path = conflictPath).map
        ConflictResolution.choice := by
  rw [resolutionFor, List.filter_reverse, List.getLast?_reverse, List.head?_filter]

theorem downloadTo_serves (signedIn : Bool) (source target : String) :
    Within (Effect.Serves target) (fun _ => True) (downloadTo cycle signedIn source target) := by
  have hget : Within (Effect.Serves target) (fun _ => True) (getFile cycle source) := by
    rw [getFile, within_bind, within_perform]
    refine ⟨trivial, ?_⟩
    intro reply
    cases reply with
    | error error => trivial
    | ok blob => trivial
  rw [downloadTo, within_bind]
  apply (bearerCall_within hget signedIn).mono
  rintro ⟨answer, signedIn⟩ _
  cases answer with
  | error error => trivial
  | ok blob =>
      simp only
      split
      next => trivial
      next =>
        rw [within_bind, within_perform]
        refine ⟨rfl, ?_⟩
        intro reply
        cases reply with
        | error error => trivial
        | ok value => trivial

theorem removeFile_serves (target : String) :
    Within (Effect.Serves target) (fun _ => True) (removeFile target) := by
  rw [removeFile, within_bind, within_perform]
  refine ⟨rfl, ?_⟩
  intro reply
  cases reply with
  | error error => trivial
  | ok value => trivial

section Resolutions

variable {resolutions : List ConflictResolution} {conflict : Conflict} {rest : List Conflict}
  {uploads : List SyncAction} {due later : Nat} {file? : Option StoredFile}

/-- What the next conflicts start from. -/
def Goes (cycle : Cycle) (resolutions : List ConflictResolution) (path : String)
    (rest : List Conflict) (due later : Nat) (next : Resolved) (state : World × Nat) : Prop :=
  ∃ next?, Awaits path due next? 0 state ∧
    Unmixed cycle.keys resolutions.reverse path rest next.uploads next? ∧
    dueReads path next.uploads + later ≤ due

/-- An answer that uploads nothing, whether it could be carried out or not. -/
theorem Goes.served {target : String} {next : Resolved} {next? : Option StoredFile}
    {state : World × Nat}
    (hunmixed : Unmixed cycle.keys resolutions.reverse path (conflict :: rest) next.uploads file?)
    (hover : target = path → Overwrites resolutions.reverse path conflict)
    (hdue : dueReads path next.uploads + later ≤ due) (hnext? : Awaits path due next? 0 state)
    (hsame : target ≠ path → next? = file?) :
    Goes cycle resolutions path rest due later next state := by
  exact ⟨next?, hnext?, hunmixed.served hover hsame, hdue⟩

/-- The answer to one conflict. -/
theorem holds_applyResolution_unmixed {resolved : Resolved}
    (hunmixed : Unmixed cycle.keys resolutions.reverse path (conflict :: rest) resolved.uploads
      file?)
    (hdue : dueReads path resolved.uploads +
      (answerReads resolutions.reverse path conflict + later) ≤ due)
    {state : World × Nat} (hawaits : Awaits path due file? 0 state) :
    Holds (beside context path due (PutsMatch cycle.keys path))
      (fun result after => ∀ next, result = .ok next →
        Goes cycle resolutions path rest due later next after)
      (applyResolution cycle resolutions resolved conflict) state := by
  have hfirst := resolutionFor_reverse resolutions conflict.path
  unfold applyResolution
  cases hanswer : resolutions.find? fun resolution => resolution.path = conflict.path with
  | none =>
      intro next hnext
      cases hnext
  | some answer =>
      rw [hanswer] at hfirst
      have hchoice : choiceOf resolutions.reverse conflict =
          some (effectiveChoice answer.choice conflict) := by
        rw [choiceOf, hfirst]
        rfl
      rw [answerReads, hchoice] at hdue
      simp only
      split
      next hdefer =>
        intro next hnext
        obtain rfl := Except.ok.inj hnext
        simp only [hdefer, Nat.zero_add] at hdue
        exact ⟨file?, hawaits, hunmixed.skip, hdue⟩
      -- keepLocal: one more upload is due
      next hkeep =>
        intro next hnext
        obtain rfl := Except.ok.inj hnext
        simp only [hkeep] at hdue
        refine ⟨file?, hawaits, hunmixed.upload (Or.inl (hkeep ▸ hchoice)), ?_⟩
        rwa [dueReads_append, Nat.add_assoc]
      -- keepRemote: the file is removed or written over
      next hkeep =>
        simp only [hkeep, Nat.zero_add] at hdue
        have hover : conflict.path = path → Overwrites resolutions.reverse path conflict :=
          fun hpath => Or.inl ⟨hpath, hkeep ▸ hchoice⟩
        split
        next =>
          rw [holds_bind]
          apply (holds_serves (removeFile_serves conflict.path) hawaits).mono
          rintro (error | value) after ⟨-, next?, hnext?, hsame⟩ next hnext
          · obtain rfl := Except.ok.inj hnext
            exact Goes.served hunmixed hover hdue hnext? hsame
          · obtain rfl := Except.ok.inj hnext
            exact Goes.served hunmixed hover hdue hnext? hsame
        next =>
          rw [holds_bind]
          apply (holds_serves (downloadTo_serves resolved.signedIn conflict.path conflict.path)
            hawaits).mono
          rintro ⟨error | value, signedIn⟩ after ⟨-, next?, hnext?, hsame⟩ next hnext
          · obtain rfl := Except.ok.inj hnext
            exact Goes.served hunmixed hover hdue hnext? hsame
          · obtain rfl := Except.ok.inj hnext
            exact Goes.served hunmixed hover hdue hnext? hsame
      -- keepBoth: the copy is written, then read for its upload
      next hkeep =>
        simp only [hkeep] at hdue
        rw [hkeep] at hchoice
        have hover : conflictCopyPath conflict.path = path →
            Overwrites resolutions.reverse path conflict := fun hpath => Or.inr ⟨hchoice, hpath⟩
        rw [holds_bind]
        apply (holds_serves (downloadTo_serves resolved.signedIn conflict.path _) hawaits).mono
        rintro ⟨error | value, signedIn⟩ written ⟨-, next?, hnext?, hsame⟩
        · intro next hnext
          obtain rfl := Except.ok.inj hnext
          refine Goes.served hunmixed hover ?_ hnext? hsame
          change dueReads path resolved.uploads + later ≤ due
          omega
        · have hread : conflictCopyPath conflict.path = path → 0 < due := by
            intro hpath
            have hone : (Effect.sealFile (conflictCopyPath conflict.path)).reads path = 1 :=
              if_pos hpath
            omega
          simp only [uploadActionFor, holds_bind]
          apply (holds_statFile (conflictCopyPath conflict.path) hread hnext?).mono
          rintro (error | file) after ⟨hafter, hfile⟩
          · -- the copy cannot be read: the conflict's own upload stays
            intro next hnext
            obtain rfl := Except.ok.inj hnext
            refine ⟨next?, hafter, hunmixed.uploadBoth hchoice hsame, ?_⟩
            change dueReads path (resolved.uploads ++ [conflictToUpload conflict]) + later ≤ due
            rw [dueReads_append]
            omega
          · intro next hnext
            obtain rfl := Except.ok.inj hnext
            have hsent : resolved.uploads ++ [conflictToUpload conflict] ++
                [copyUpload cycle.keys (conflictCopyPath conflict.path) file] =
                resolved.uploads ++ [conflictToUpload conflict,
                  copyUpload cycle.keys (conflictCopyPath conflict.path) file] :=
              List.append_assoc _ _ _
            refine ⟨next?, hafter, ?_, ?_⟩
            · exact hsent ▸ hunmixed.sendBoth hchoice (hfile file rfl) hsame
            · change dueReads path (resolved.uploads ++ [conflictToUpload conflict] ++
                [copyUpload cycle.keys (conflictCopyPath conflict.path) file]) + later ≤ due
              rw [dueReads_append, dueReads_append, dueReads_copyUpload]
              omega

theorem holds_applyResolutions_unmixed {conflicts : List Conflict} {resolved : Resolved}
    (hunmixed : Unmixed cycle.keys resolutions.reverse path conflicts resolved.uploads file?)
    (hdue : dueReads path resolved.uploads +
      (conflicts.map (answerReads resolutions.reverse path)).sum ≤ due)
    {state : World × Nat} (hawaits : Awaits path due file? 0 state) :
    Holds (beside context path due (PutsMatch cycle.keys path))
      (fun result after => ∀ final, result = .ok final → ∃ final?,
        Awaits path due final? 0 after ∧ HashesStand cycle.keys path final? final.uploads ∧
        dueReads path final.uploads ≤ due)
      (applyResolutions cycle resolutions conflicts resolved) state := by
  induction conflicts generalizing resolved file? state with
  | nil =>
      intro final hfinal
      obtain rfl := Except.ok.inj hfinal
      exact ⟨file?, hawaits, hunmixed.hashed, hdue⟩
  | cons conflict rest ih =>
      rw [List.map_cons, List.sum_cons] at hdue
      rw [applyResolutions, holds_bind]
      apply (holds_applyResolution_unmixed hunmixed hdue hawaits).mono
      intro result after hresult
      cases result with
      | error error =>
          intro final hfinal
          cases hfinal
      | ok next =>
          obtain ⟨next?, hnext?, hnext, hless⟩ := hresult next rfl
          exact ih hnext hless hnext?

end Resolutions

/-! ## Both clients -/

theorem fetchRemoteManifest_books (signedIn : Bool) :
    Within Effect.Books (fun _ => True) (fetchRemoteManifest cycle signedIn) := by
  have hget : ∀ ifNoneMatch,
      Within Effect.Books (fun _ => True) (getManifest cycle ifNoneMatch) := by
    intro ifNoneMatch
    rw [getManifest, within_bind, within_perform]
    refine ⟨trivial, ?_⟩
    intro reply
    cases reply with
    | error error => trivial
    | ok answer => trivial
  rw [fetchRemoteManifest, within_bind, within_perform]
  refine ⟨trivial, ?_⟩
  intro cached
  rw [within_bind]
  apply (bearerCall_within (hget _) signedIn).mono
  rintro ⟨answer, signedIn⟩ _
  rcases answer with error | _ | ⟨rows, etag⟩
  · trivial
  · cases cached with
    | none => trivial
    | some cache => trivial
  · simp only
    split
    next => trivial
    next =>
      rw [within_bind, within_perform]
      exact ⟨trivial, fun _ => trivial⟩

theorem checkpoint_books (signedIn : Bool) (base : Manifest) (holdBack : List String) :
    Within Effect.Books (fun _ => True) (checkpoint cycle signedIn base holdBack) := by
  rw [checkpoint, within_bind]
  apply (fetchRemoteManifest_books signedIn).mono
  rintro ⟨refetched, signedIn⟩ _
  cases refetched with
  | error error => trivial
  | ok refetched =>
      rw [within_bind, within_perform]
      refine ⟨trivial, ?_⟩
      intro saved
      cases saved with
      | error error => trivial
      | ok value => trivial

/-- The browser's half of a cycle that sends anything. -/
theorem holds_completeSync_right (hkeys : cycle.keys = context.crypto)
    (hideal : context.crypto.Ideal) (prepared : Prepared) (resolutions : List ConflictResolution)
    {due : Nat} {world : World}
    (hunmixed : Unmixed context.crypto resolutions.reverse path prepared.plan.conflicts
      prepared.plan.upload world.device.folder[path]?)
    (hdue : dueReads path prepared.plan.upload +
      (prepared.plan.conflicts.map (answerReads resolutions.reverse path)).sum ≤ due) :
    Holds (beside context path due (PutsMatch context.crypto path)) (fun _ _ => True)
      (completeSync cycle prepared resolutions) (world, 0) := by
  have hstart : Unmixed cycle.keys resolutions.reverse path prepared.plan.conflicts
      (⟨prepared.plan.upload, [], [], prepared.signedIn⟩ : Resolved).uploads
      world.device.folder[path]? := by
    rw [hkeys]
    exact hunmixed
  have hawaits : Awaits path due world.device.folder[path]? 0 (world, 0) := ⟨rfl, fun _ => rfl⟩
  rw [completeSync, holds_bind, ← hkeys]
  apply (holds_applyResolutions_unmixed hstart hdue hawaits).mono
  intro result resolvedWorld hresolved
  cases result with
  | error error => trivial
  | ok resolved =>
      obtain ⟨final?, hfinal?, hhashes, hless⟩ := hresolved resolved rfl
      rw [hkeys] at hhashes ⊢
      simp only [uploadAndCheckpoint, holds_bind]
      apply (holds_runUploads_right hkeys hideal hhashes (by rwa [Nat.zero_add]) _ hfinal?).mono
      rintro ⟨uploaded, signedIn⟩ after _
      simp only
      split
      next => trivial
      next =>
        rw [holds_bind]
        apply (holds_silent ((checkpoint_books signedIn prepared.base _).weaken fun effect =>
          Effect.Books.silent) due after).mono
        intro result later _
        cases result with
        | error error => trivial
        | ok value => trivial

/-- Preparing sends nothing. Completing a plan, however old, sends of a path only
contents with their own hash, natively and in the browser, if what the plan recorded
for the path is there when it starts and nobody but the engine changes the file until
it has been read for every upload of the path. -/
theorem uploads_carry_their_hash (hideal : context.crypto.Ideal) (path : String) :
    (∀ due state, Holds (beside context path due (PutsMatch context.crypto path)) (fun _ _ => True)
      (Engine.prepareSync context.crypto context.ignore) state) ∧
    (∀ (plan : SyncPlan) (resolutions : List ConflictResolution) (due : Nat) (world : World),
      Unmixed context.crypto resolutions path plan.conflicts plan.upload
        world.device.folder[path]? →
      dueReads path plan.upload + (plan.conflicts.map (answerReads resolutions path)).sum ≤ due →
      Holds (beside context path due (PutsMatch context.crypto path)) (fun _ _ => True)
        (Engine.completeSync context.crypto plan resolutions) (world, 0)) ∧
    ∀ (cycle : Cycle) (prepared : Prepared) (resolutions : List ConflictResolution) (due : Nat)
      (world : World), cycle.keys = context.crypto →
      Unmixed context.crypto resolutions.reverse path prepared.plan.conflicts
        prepared.plan.upload world.device.folder[path]? →
      dueReads path prepared.plan.upload +
        (prepared.plan.conflicts.map (answerReads resolutions.reverse path)).sum ≤ due →
      Holds (beside context path due (PutsMatch context.crypto path)) (fun _ _ => True)
        (completeSync cycle prepared resolutions) (world, 0) := by
  refine ⟨?_, ?_, ?_⟩
  · intro due state
    exact holds_silent (prepareSync_silent context.crypto context.ignore) due state
  · intro plan resolutions due world
    exact Engine.holds_completeSync_right hideal plan resolutions
  · intro cycle prepared resolutions due world hkeys
    exact holds_completeSync_right hkeys hideal prepared resolutions

/-- The note is sealed once; the user may edit it from then on. -/
theorem note_of_sample_carries_its_hash :
    Holds (beside sampleContext "note" 1 (PutsMatch sampleContext.crypto "note")) (fun _ _ => True)
      (Engine.completeSync sampleContext.crypto notePlan []) (sampleWorld, 0) ∧
    Holds (beside sampleContext "note" 1 (PutsMatch sampleContext.crypto "note")) (fun _ _ => True)
      (completeSync ⟨sampleContext.crypto, sampleContext.ignore, .nil, fun _ => none⟩
        ⟨notePlan, ∅, true⟩ []) (sampleWorld, 0) := by
  have hunmixed : Unmixed sampleContext.crypto [] "note" notePlan.conflicts notePlan.upload
      sampleWorld.device.folder["note"]? := by
    refine ⟨?_, by simp [notePlan], by simp [notePlan], by simp [notePlan]⟩
    intro action haction _ _ file hfile
    obtain rfl := List.mem_singleton.mp haction
    have hnote : sampleWorld.device.folder["note"]? = some ⟨[104, 105], 1⟩ := by decide
    obtain rfl := Option.some.inj (hnote.symm.trans hfile)
    rfl
  obtain ⟨-, hnative, hbrowser⟩ := uploads_carry_their_hash sampleContext_ideal.crypto "note"
  exact ⟨hnative notePlan [] 1 sampleWorld hunmixed (by decide),
    hbrowser _ ⟨notePlan, ∅, true⟩ [] 1 sampleWorld rfl hunmixed (by decide)⟩

end ObSink.Web
