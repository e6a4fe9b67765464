import ObSink.Web.FirstHalf

/-! # The two cycles

The browser's cycle against the native one, under the same answers, from the
resolutions to the checkpoint, and as a whole. The native cycle reads its base
again before it saves the next one; apart from that both do the same operations
one after the other.
-/

namespace ObSink.Web

open Engine
open Prog (BothEnd Together perform together_perform)

/-! ## Resolutions -/

section Resolutions

variable {cycle : Cycle} {base : Manifest}

/-- The answers while conflicts are resolved. -/
def OrdinarySmooth (cycle : Cycle) (base : Manifest) (effect : Effect)
    (reply : effect.Reply) : Prop :=
  Ordinary cycle base effect reply ∧ Smooth cycle effect reply

/-- One answer is both the first and the last. -/
theorem resolutionFor_eq_find {resolutions : List ConflictResolution} {path : String}
    (hone : (resolutions.filter fun resolution => resolution.path = path).length ≤ 1) :
    resolutionFor resolutions path =
      (resolutions.find? fun resolution => resolution.path = path).map
        ConflictResolution.choice := by
  rw [resolutionFor, ← List.head?_filter]
  cases hanswers : resolutions.filter fun resolution => resolution.path = path with
  | nil => rfl
  | cons answer rest =>
      cases rest with
      | nil => rfl
      | cons second others => simp [hanswers] at hone

theorem fetchTo_together (path target : String) :
    Together silent (OrdinarySmooth cycle base)
      (fun result done => result = .ok () ∧ done = (.ok (), true))
      (fetchTo cycle.keys path target) (downloadTo cycle true path target) := by
  simp only [fetchTo, downloadTo, getFile, bearerCall, bind_assoc, if_true]
  apply together_perform
  intro reply hreply
  obtain ⟨blob, plaintext, rfl, hplaintext⟩ := hreply.2
  simp only [decryptAndWrite, pure_bind, hplaintext]
  rw [← bind_pure (perform (Effect.writeFile target plaintext))]
  apply together_perform
  intro reply hreply
  obtain rfl : reply = .ok () := hreply.2
  exact .pure ⟨rfl, rfl⟩

/-- The same uploads and open conflicts, and nothing amiss. -/
structure SettledAlike (resolved : Engine.Resolved) (resolved' : Resolved) : Prop where
  uploads : resolved.uploads = resolved'.uploads
  deferred : resolved.deferred = resolved'.deferred
  failures : resolved'.failures = []
  signedIn : resolved'.signedIn = true
  listed : ∀ action ∈ resolved.uploads, action.localEntry.isSome = true

theorem SettledAlike.upload {resolved : Engine.Resolved} {resolved' : Resolved}
    (halike : SettledAlike resolved resolved') {actions : List SyncAction}
    (hlisted : ∀ action ∈ actions, action.localEntry.isSome = true) :
    SettledAlike { resolved with uploads := resolved.uploads ++ actions }
      { resolved' with uploads := resolved'.uploads ++ actions } :=
  { halike with
    uploads := congrArg (· ++ actions) halike.uploads
    listed := fun action hmem =>
      (List.mem_append.mp hmem).elim (halike.listed action) (hlisted action) }

theorem applyResolution_together {resolutions : List ConflictResolution} {conflict : Conflict}
    (hone : (resolutions.filter fun resolution => resolution.path = conflict.path).length ≤ 1)
    {resolved : Engine.Resolved} {resolved' : Resolved} (halike : SettledAlike resolved resolved') :
    Together silent (OrdinarySmooth cycle base) (BothEnd SettledAlike)
      (Engine.applyResolution cycle.keys resolutions resolved conflict)
      (applyResolution cycle resolutions resolved' conflict) := by
  rw [Engine.applyResolution, applyResolution, resolutionFor_eq_find hone]
  cases resolutions.find? fun resolution => resolution.path = conflict.path with
  | none => exact .pure (.error _ _)
  | some answer =>
      simp only [Option.map_some]
      have hlocal : (conflictToUpload conflict).localEntry.isSome = true := rfl
      cases effectiveChoice answer.choice conflict with
      | defer =>
          exact .pure (.ok _ _
            { halike with deferred := congrArg (· ++ [conflict]) halike.deferred })
      | keepLocal =>
          exact .pure (.ok _ _
            (halike.upload fun action hmem => List.mem_singleton.mp hmem ▸ hlocal))
      | keepRemote =>
          simp only [applyKeepRemote]
          split
          next =>
            simp only [removeFile, bind_assoc]
            apply together_perform
            intro reply hreply
            obtain rfl : reply = .ok () := hreply.2
            exact .pure (.ok _ _ halike)
          next =>
            simp only [halike.signedIn]
            apply (fetchTo_together conflict.path conflict.path).bind
            rintro result done ⟨rfl, rfl⟩
            exact .pure (.ok _ _ { halike with signedIn := rfl })
      | keepBoth =>
          simp only [writeConflictCopy, bind_assoc, halike.signedIn]
          apply (fetchTo_together conflict.path (conflictCopyPath conflict.path)).bind
          rintro result done ⟨rfl, rfl⟩
          simp only [buildUploadActionForPath, uploadActionFor, pure_bind, bind_assoc]
          apply together_perform
          intro reply hreply
          obtain ⟨file, rfl⟩ := hreply.2
          refine .pure (.ok _ _ { halike with signedIn := rfl, uploads := ?_, listed := ?_ })
          · simp [halike.uploads]
          · intro action hmem
            simp only [List.mem_append, List.mem_cons, List.not_mem_nil, or_false] at hmem
            rcases hmem with hold | rfl | rfl
            · exact halike.listed action hold
            · exact hlocal
            · rfl

theorem applyResolutions_together {resolutions : List ConflictResolution}
    (conflicts : List Conflict)
    (hone : ∀ conflict ∈ conflicts,
      (resolutions.filter fun resolution => resolution.path = conflict.path).length ≤ 1)
    {resolved : Engine.Resolved} {resolved' : Resolved} (halike : SettledAlike resolved resolved') :
    Together silent (OrdinarySmooth cycle base) (BothEnd SettledAlike)
      (Engine.applyResolutions cycle.keys resolutions conflicts resolved)
      (applyResolutions cycle resolutions conflicts resolved') := by
  induction conflicts generalizing resolved resolved' with
  | nil => exact .pure (.ok _ _ halike)
  | cons conflict rest ih =>
      rw [Engine.applyResolutions, applyResolutions]
      apply (applyResolution_together (hone conflict List.mem_cons_self) halike).bind
      intro result result' hresult
      cases hresult with
      | error error error' => exact .pure (.error _ _)
      | ok after after' hafter =>
          exact ih (fun later hlater => hone later (List.mem_cons_of_mem _ hlater)) hafter

end Resolutions

/-! ## Uploads -/

section Uploads

variable {cycle : Cycle} {base : Manifest} {held : List String} {outcome : UploadOutcome}
  {uploaded : Uploaded}

/-- The same failures and conflicts; the native client has also listed their
paths, after those held back from the start. -/
structure UploadedAlike (held : List String) (outcome : UploadOutcome) (uploaded : Uploaded) :
    Prop where
  failures : outcome.failures.map gist = uploaded.failures.map gist
  late : outcome.lateConflicts = uploaded.late
  holdBack : ∀ path, path ∈ outcome.holdBack ↔ path ∈ held ∨
    path ∈ outcome.failures.map SyncFailure.path ∨ path ∈ uploaded.late.map Conflict.path

theorem UploadedAlike.done (halike : UploadedAlike held outcome uploaded) (succeeded : Nat)
    (done : List SyncAction) :
    UploadedAlike held { outcome with succeeded } { uploaded with done } :=
  { halike with }

theorem UploadedAlike.fail (halike : UploadedAlike held outcome uploaded) (action : SyncAction)
    (message message' : String) (fatal : Bool) :
    UploadedAlike held (outcome.fail action message fatal)
      { uploaded with
        failures := uploaded.failures ++ [⟨action.path, action.kind, message', fatal⟩] } where
  failures := by simp [UploadOutcome.fail, halike.failures, gist]
  late := halike.late
  holdBack path := by
    have hold := halike.holdBack path
    simp only [UploadOutcome.fail, List.mem_append, hold, List.map_append, List.map_cons,
      List.map_nil, List.mem_cons, List.not_mem_nil, or_false, or_assoc]
    rw [or_comm (b := path = action.path)]

/-- Every member of a batch fails for one reason. -/
theorem UploadedAlike.failAll (halike : UploadedAlike held outcome uploaded) (message : String)
    {fatal : Bool} {error : CommandError} (hfatal : fatal = isFatalError error)
    (members : List (SyncAction × BatchOp)) :
    UploadedAlike held
      (members.foldl (fun outcome member => outcome.fail member.1 message fatal) outcome)
      { uploaded with
        failures := uploaded.failures ++ members.map fun member => failureOf member.1 error } := by
  induction members generalizing outcome uploaded with
  | nil => simpa using halike
  | cons member rest ih =>
      have hrest := ih (halike.fail member.1 message error.message fatal)
      simpa [failureOf, hfatal] using hrest

/-- A member of a batch with its operation. -/
def Prepares (member : SyncAction × BatchOp) : Prop :=
  presented member.2 = parentHash member.1 ∧ member.1.localEntry.isSome = true

/-- The same members, each with the operation of its action. -/
def BatchAlike (held : List String) (prepared : List (SyncAction × BatchOp) × UploadOutcome)
    (prepared' : List (SyncAction × BatchOp) × Uploaded) : Prop :=
  prepared.1 = prepared'.1 ∧ (∀ member ∈ prepared.1, Prepares member) ∧
    UploadedAlike held prepared.2 prepared'.2

theorem prepareBatch_together (actions : List SyncAction)
    (hlisted : ∀ action ∈ actions, action.localEntry.isSome = true)
    (halike : UploadedAlike held outcome uploaded) :
    Together silent (Ordinary cycle base) (BatchAlike held) (Engine.prepareBatch actions outcome)
      (prepareBatch cycle actions uploaded) := by
  induction actions generalizing outcome uploaded with
  | nil => exact .pure ⟨rfl, by simp, halike⟩
  | cons action rest ih =>
      have hrest := fun {outcome uploaded} (halike : UploadedAlike held outcome uploaded) =>
        ih (fun later hlater => hlisted later (List.mem_cons_of_mem _ hlater)) halike
      have hown := hlisted action List.mem_cons_self
      rw [Engine.prepareBatch, prepareBatch, prepareBatchOp]
      cases hkind : action.kind with
      | upload =>
          simp only [bind_assoc]
          apply together_perform
          intro reply _
          cases reply with
          | error error =>
              have hfailed := halike.fail action error.text error.text false
              rw [hkind] at hfailed
              exact hrest hfailed
          | ok content =>
              obtain ⟨entry, hentry⟩ := Option.isSome_iff_exists.mp hown
              simp only [pure_bind, hentry, Option.map_some, Option.getD_some]
              apply (hrest halike).bind
              rintro prepared prepared' ⟨hmembers, hprepares, hafter⟩
              refine .pure ⟨congrArg _ hmembers, ?_, hafter⟩
              exact List.forall_mem_cons.mpr ⟨⟨rfl, hown⟩, hprepares⟩
      | deleteRemote =>
          simp only [pure_bind]
          apply (hrest halike).bind
          rintro prepared prepared' ⟨hmembers, hprepares, hafter⟩
          refine .pure ⟨congrArg _ hmembers, ?_, hafter⟩
          exact List.forall_mem_cons.mpr ⟨⟨rfl, hown⟩, hprepares⟩
      | download => exact hrest (halike.done _ _)
      | deleteLocal => exact hrest (halike.done _ _)

/-- A result that both make the same of. -/
def Fits (op : BatchOp) (result : BatchOperationResult) : Prop :=
  result.status < 600 ∧
    (result.status = 409 → result.conflict.bind ServerConflict.current = none → presented op = none)

/-- What the server's side of a batch comes to. -/
def Results (ops : List BatchOp) : Except Server.ApiError (List BatchOperationResult) → Prop
  | .ok results => List.Forall₂ Fits ops results
  | .error error => error.statusCode < 600

theorem applyOperations_together (ops : List BatchOp) :
    Together silent (Ordinary cycle base)
      (fun answer answer' => answer = answer' ∧ Results ops answer)
      (applyOperations ops) (applyOperations ops) := by
  induction ops with
  | nil => exact .pure ⟨rfl, .nil⟩
  | cons op rest ih =>
      have hgoOn : ∀ result, Fits op result →
          ∀ next : Except Server.ApiError (List BatchOperationResult) →
            Eff (Except Server.ApiError (List BatchOperationResult)),
          (∀ error, next (.error error) = pure (.error error)) →
          (∀ results, next (.ok results) = pure (.ok (result :: results))) →
          Together silent (Ordinary cycle base)
            (fun answer answer' => answer = answer' ∧ Results (op :: rest) answer)
            (applyOperations rest >>= next) (applyOperations rest >>= next) := by
        intro result hfits next herror hok
        apply ih.bind
        rintro answer answer' ⟨rfl, hresults⟩
        cases answer with
        | error error =>
            rw [herror]
            exact .pure ⟨rfl, hresults⟩
        | ok results =>
            rw [hok]
            exact .pure ⟨rfl, .cons hfits hresults⟩
      rw [applyOperations]
      apply together_perform
      intro reply hreply
      cases reply with
      | ok done =>
          refine hgoOn ⟨op.path, 200, none⟩ ⟨show 200 < 600 by decide, fun h409 => ?_⟩ _
            (fun _ => rfl) fun _ => rfl
          exact absurd h409 (show 200 ≠ 409 by decide)
      | error error =>
          obtain ⟨hstatus, hconflict⟩ := hreply error rfl
          cases error with
          | internal message => exact .pure ⟨rfl, hstatus⟩
          | status status message =>
              exact hgoOn ⟨op.path, status, none⟩ ⟨hstatus, fun h409 _ =>
                hconflict h409 (by simp)⟩ _ (fun _ => rfl) fun _ => rfl
          | conflict path current =>
              refine hgoOn ⟨op.path, 409, some ⟨path, current⟩⟩
                ⟨show 409 < 600 by decide, fun _ hnone => hconflict rfl ?_⟩ _
                (fun _ => rfl) fun _ => rfl
              obtain rfl : current = none := hnone
              simp

/-- The same results, or errors that are equally bad; a bearer is only forgotten
over a fatal one. -/
def AnsweredAlike (ops : List BatchOp) : Except ApiError (List BatchOperationResult) →
    Except CommandError (List BatchOperationResult) × Bool → Prop
  | .ok results, (.ok results', signedIn) =>
      results = results' ∧ signedIn = true ∧ List.Forall₂ Fits ops results
  | .error error, (.error error', signedIn) =>
      isFatalApiError error = isFatalError error' ∧
        (signedIn = false → isFatalApiError error = true)
  | _, _ => False

theorem answeredAlike_error (ops : List BatchOp) {error : ApiError} {error' : CommandError}
    (hfatal : isFatalApiError error = isFatalError error') :
    AnsweredAlike ops (.error error) (.error error', error'.kind ≠ .unauthorized) := by
  refine ⟨hfatal, fun hforgotten => ?_⟩
  rw [hfatal]
  simp only [ne_eq, decide_not, Bool.not_eq_false', decide_eq_true_eq] at hforgotten
  simp [isFatalError, hforgotten]

theorem known_ofServer {error : Server.ApiError} (hstatus : error.statusCode < 600) :
    Known (ofServer error) := by
  intro status body hsame
  unfold ofServer at hsame
  split at hsame
  next => cases hsame
  next =>
    obtain ⟨rfl, -⟩ := ApiError.unexpectedStatus.inj hsame
    exact hstatus

theorem batch_together (ops : List BatchOp) :
    Together silent (Ordinary cycle base) (AnsweredAlike ops) (Engine.batch ops maxAttempts)
      (bearerCall true (batch cycle ops)) := by
  have hgiven : ∀ error, isTransient error = false ∧ Known error →
      Together silent (Ordinary cycle base) (AnsweredAlike ops)
        (if 2 = 0 ∨ isTransient error = false then pure (.error error) else Engine.batch ops 2)
        (pure (.error (cycle.exception error),
          decide ((cycle.exception error).kind ≠ .unauthorized))) := by
    rintro error ⟨hlost, hknown⟩
    rw [if_pos (Or.inr hlost)]
    exact .pure (answeredAlike_error ops (isFatalError_exception cycle hknown).symm)
  change Together _ _ _ (Engine.batch ops (2 + 1)) _
  simp only [Engine.batch, sendBatchOnce, batch, bearerCall, bind_assoc, if_true]
  apply together_perform
  intro reply hreply
  cases reply with
  | error error => exact hgiven error (hreply error rfl)
  | ok sent =>
      simp only [bind_assoc]
      apply (applyOperations_together ops).bind
      rintro answer answer' ⟨rfl, hresults⟩
      apply together_perform
      intro reply hreply
      cases reply with
      | error error => exact hgiven error (hreply error rfl)
      | ok received =>
          cases answer with
          | error error =>
              exact .pure (answeredAlike_error ops
                (isFatalError_exception cycle (known_ofServer hresults)).symm)
          | ok results =>
              simp only [bind_assoc]
              apply together_perform
              intro reply hreply
              cases reply with
              | error error =>
                  refine .pure (answeredAlike_error ops ?_)
                  rw [hreply error rfl]
                  rfl
              | ok read =>
                  simp only
                  split
                  next =>
                    refine .pure (answeredAlike_error ops ?_)
                    rw [isFatalError_fromStatus]
                    rfl
                  next => exact .pure ⟨rfl, rfl, hresults⟩

theorem wireEntry_eq {action : SyncAction} {current : Option FileEntry}
    (hparent : current = none → parentHash action = none) :
    wireEntry current action.remoteEntry = current.getD { deleted := true } := by
  cases current with
  | some entry => rfl
  | none =>
      have hnone := hparent rfl
      rw [parentHash] at hnone
      cases hremote : action.remoteEntry with
      | none => rfl
      | some entry =>
          rw [hremote] at hnone
          have hempty : entry.hash = "" := by simpa [Option.filter] using hnone
          simp [wireEntry, hempty]

theorem accountResult_alike (halike : UploadedAlike held outcome uploaded)
    {member : SyncAction × BatchOp} {result : BatchOperationResult} (hprepares : Prepares member)
    (hfits : Fits member.2 result) :
    (Engine.accountResult outcome member.1 result).2 = (accountResult uploaded member.1 result).2 ∧
      UploadedAlike held (Engine.accountResult outcome member.1 result).1
        (accountResult uploaded member.1 result).1 := by
  obtain ⟨hbelow, hparent⟩ := hfits
  have hrange : (200 ≤ result.status ∧ result.status ≤ 299) ↔
      (200 ≤ result.status ∧ result.status < 300) := by omega
  rw [Engine.accountResult, accountResult]
  by_cases hdone : 200 ≤ result.status ∧ result.status < 300
  · rw [if_pos (hrange.mpr hdone), if_pos hdone]
    exact ⟨rfl, halike.done _ _⟩
  rw [if_neg (mt hrange.mp hdone), if_neg hdone]
  by_cases h409 : result.status = 409
  · rw [if_pos h409, if_pos h409]
    obtain ⟨entry, hentry⟩ := Option.isSome_iff_exists.mp hprepares.2
    have hremote := wireEntry_eq fun hnone => hprepares.1 ▸ hparent h409 hnone
    refine ⟨rfl, { halike with late := ?_, holdBack := ?_ }⟩
    · simp only [hentry, Option.getD_some, halike.late, hremote]
    · intro path
      have hold := halike.holdBack path
      simp only [List.mem_append, hold, List.map_append, List.map_cons, List.map_nil,
        List.mem_cons, List.not_mem_nil, or_false, or_assoc]
  · rw [if_neg h409, if_neg h409]
    refine ⟨(isFatalStatus_eq hbelow).symm, ?_⟩
    dsimp only
    rw [isFatalStatus_eq hbelow]
    exact halike.fail member.1 _ _ _

theorem accountResults_alike (halike : UploadedAlike held outcome uploaded)
    {members : List (SyncAction × BatchOp)} {results : List BatchOperationResult}
    (hprepares : ∀ member ∈ members, Prepares member)
    (hfits : List.Forall₂ Fits (members.map Prod.snd) results) :
    (Engine.accountResults ((members.map Prod.fst).zip results) outcome).2 =
        (accountResults ((members.map Prod.fst).zip results) uploaded).2 ∧
      UploadedAlike held (Engine.accountResults ((members.map Prod.fst).zip results) outcome).1
        (accountResults ((members.map Prod.fst).zip results) uploaded).1 := by
  induction members generalizing outcome uploaded results with
  | nil => exact ⟨rfl, halike⟩
  | cons member rest ih =>
      cases hfits with
      | cons hown hrest =>
          rename_i result later
          obtain ⟨hown', hothers⟩ := List.forall_mem_cons.mp hprepares
          obtain ⟨hstop, hafter⟩ := accountResult_alike halike hown' hown
          obtain ⟨hlater, hend⟩ := ih hafter hothers hrest
          rw [List.map_cons, List.zip_cons_cons, Engine.accountResults, accountResults]
          exact ⟨congr (congrArg or hstop) hlater, hend⟩

/-- The same outcome of a batch; a bearer is only forgotten over a fatal failure. -/
def StoppedAlike (held : List String) (result : UploadOutcome × Bool)
    (result' : Uploaded × Bool × Bool) : Prop :=
  UploadedAlike held result.1 result'.1 ∧ result.2 = result'.2.1 ∧
    (result'.2.2 = false → result.2 = true ∧ result'.1.failures.any SyncFailure.fatal = true)

theorem runBatch_together {actions : List SyncAction}
    (hlisted : ∀ action ∈ actions, action.localEntry.isSome = true)
    (halike : UploadedAlike held outcome uploaded) :
    Together silent (Ordinary cycle base) (StoppedAlike held) (Engine.runBatch actions outcome)
      (runBatch cycle actions uploaded true) := by
  unfold Engine.runBatch runBatch
  apply (prepareBatch_together actions hlisted halike).bind
  rintro ⟨members, outcome⟩ ⟨members', uploaded⟩ ⟨hmembers, hprepares, hafter⟩
  obtain rfl : members = members' := hmembers
  change UploadedAlike held outcome uploaded at hafter
  simp only
  split
  next => exact .pure ⟨hafter, rfl, fun hforgotten => by cases hforgotten⟩
  next hsome =>
    apply (batch_together (members.map Prod.snd)).bind
    rintro answer ⟨answer', signedIn⟩ hanswer
    cases answer with
    | error error =>
        cases answer' with
        | ok results' => exact absurd hanswer id
        | error error' =>
            obtain ⟨hfatal, hforgotten⟩ := hanswer
            refine .pure ⟨hafter.failAll error.text hfatal members, hfatal, fun hsession => ?_⟩
            refine ⟨hforgotten hsession, ?_⟩
            obtain ⟨first, others, rfl⟩ := List.exists_cons_of_ne_nil
              (fun hnil => hsome (List.isEmpty_iff.mpr hnil))
            simp [failureOf, ← hfatal, hforgotten hsession]
    | ok results =>
        cases answer' with
        | error error' => exact absurd hanswer id
        | ok results' =>
            obtain ⟨rfl, rfl, hfits⟩ := hanswer
            obtain ⟨hstop, hend⟩ := accountResults_alike hafter hprepares hfits
            exact .pure ⟨hend, hstop, fun hforgotten => by cases hforgotten⟩

/-- The same outcome; a bearer is only forgotten over a fatal failure. -/
def EndedAlike (held : List String) (outcome : UploadOutcome) (result : Uploaded × Bool) : Prop :=
  UploadedAlike held outcome result.1 ∧
    (result.2 = false → result.1.failures.any SyncFailure.fatal = true)

theorem runBatches_together (parts : List (List SyncAction))
    (hlisted : ∀ part ∈ parts, ∀ action ∈ part, action.localEntry.isSome = true)
    (halike : UploadedAlike held outcome uploaded) :
    Together silent (Ordinary cycle base) (EndedAlike held) (Engine.runBatches parts outcome)
      (runBatches cycle parts uploaded true) := by
  induction parts generalizing outcome uploaded with
  | nil => exact .pure ⟨halike, fun hforgotten => by cases hforgotten⟩
  | cons part rest ih =>
      obtain ⟨hown, hothers⟩ := List.forall_mem_cons.mp hlisted
      rw [Engine.runBatches, runBatches]
      apply (runBatch_together hown halike).bind
      rintro ⟨outcome, stop⟩ ⟨uploaded, stop', signedIn⟩ ⟨hafter, hstop, hforgotten⟩
      obtain rfl : stop = stop' := hstop
      cases stop with
      | true => exact .pure ⟨hafter, fun hsession => (hforgotten hsession).2⟩
      | false =>
          cases signedIn with
          | false => exact absurd (hforgotten rfl).1 (by simp)
          | true => exact ih hothers hafter

/-- Counting the size of deletions, too, makes no difference to the batches. -/
def Evenly (uploads : List SyncAction) : Prop := Engine.batches uploads = batches uploads

theorem runUploads_together {uploads : List SyncAction} (held : List String)
    (hevenly : Evenly uploads) (hlisted : ∀ action ∈ uploads, action.localEntry.isSome = true) :
    Together silent (Ordinary cycle base) (EndedAlike held) (Engine.runUploads uploads held)
      (runUploads cycle uploads true) := by
  unfold Engine.runUploads runUploads
  rw [hevenly]
  refine runBatches_together _ ?_ ⟨rfl, rfl, by simp⟩
  intro part hpart action hmem
  obtain ⟨range, -, rfl⟩ := List.mem_map.mp hpart
  exact hlisted action (List.mem_of_mem_drop (List.mem_of_mem_take hmem))

end Uploads

/-! ## The second half -/

section Complete

variable {cycle : Cycle} {base : Manifest}

theorem checkpointManifest_of_mem_iff {refetched : Manifest} {held held' : List String}
    (hsame : ∀ path, path ∈ held ↔ path ∈ held') :
    checkpointManifest base refetched held = checkpointManifest base refetched held' := by
  apply Std.ExtTreeMap.ext_getElem?
  intro path
  rw [checkpointManifest_getElem?, checkpointManifest_getElem?]
  simp only [hsame path]

theorem checkpoint_together {held held' : List String}
    (hsame : ∀ path, path ∈ held ↔ path ∈ held') :
    Together silent (Ordinary cycle base) (BothEnd fun _ _ => True)
      (Engine.checkpoint cycle.keys held) (checkpoint cycle true base held') := by
  unfold Engine.checkpoint checkpoint
  apply fetchRemoteManifest_together.bind
  rintro fetched ⟨fetched', signedIn⟩ halike
  cases halike with
  | error error error' => exact .pure (.error _ _)
  | ok refetched refetched' hfetched =>
      obtain ⟨rfl, -, -⟩ := hfetched
      -- the native client reads its base again
      refine .alone rfl fun reply hreply => ?_
      obtain rfl : reply = .ok base := hreply
      have hsaved : checkpointManifest base refetched held =
          checkpointManifest base refetched held' := checkpointManifest_of_mem_iff hsame
      change Together _ _ _ (perform (Effect.saveBase (checkpointManifest base refetched held))) _
      generalize checkpointManifest base refetched held = saved at hsaved ⊢
      subst hsaved
      rw [← bind_pure (perform (Effect.saveBase _))]
      apply together_perform
      intro reply _
      cases reply with
      | ok saved => exact .pure (.ok _ _ trivial)
      | error error => exact .pure (.error _ _)

/-- The uploads and the checkpoint of a native cycle whose conflicts are resolved. -/
def finish (cycle : Cycle) (plan : SyncPlan) (resolved : Engine.Resolved) :
    Eff (Except SyncEngineError SyncResult) := do
  let holdBack := plan.failures.map SyncFailure.path ++ resolved.deferred.map Conflict.path
  let uploads ← Engine.runUploads resolved.uploads holdBack
  let failures := plan.failures ++ uploads.failures
  let checkpointError ←
    if failures.any SyncFailure.fatal then pure none
    else do
      match ← Engine.checkpoint cycle.keys uploads.holdBack with
      | .ok () => pure none
      | .error error => pure (some error.text)
  return .ok { upload := resolved.uploads, download := plan.download,
               conflicts := resolved.deferred ++ uploads.lateConflicts, failures, checkpointError }

theorem completeSync_eq (cycle : Cycle) (plan : SyncPlan) (resolutions : List ConflictResolution) :
    Engine.completeSync cycle.keys plan resolutions =
      (do
        match ← Engine.applyResolutions cycle.keys resolutions plan.conflicts ⟨plan.upload, []⟩ with
        | .error error => pure (.error error)
        | .ok resolved => finish cycle plan resolved) := rfl

/-- The same result but for the texts of errors and what is listed as uploaded. -/
structure ResultAlike (result result' : SyncResult) : Prop where
  download : result.download = result'.download
  conflicts : result.conflicts = result'.conflicts
  failures : result.failures.map gist = result'.failures.map gist
  checkpointError : result.checkpointError.isSome = result'.checkpointError.isSome

theorem any_fatal_of_gist {failures failures' : List SyncFailure}
    (hgist : failures.map gist = failures'.map gist) :
    failures.any SyncFailure.fatal = failures'.any SyncFailure.fatal := by
  have hfatal : ∀ failures : List SyncFailure,
      failures.any SyncFailure.fatal = (failures.map gist).any fun gist => gist.2.2 := by
    intro failures
    rw [List.any_map]
    rfl
  rw [hfatal, hgist, ← hfatal]

theorem paths_of_gist {failures failures' : List SyncFailure}
    (hgist : failures.map gist = failures'.map gist) :
    failures.map SyncFailure.path = failures'.map SyncFailure.path := by
  have hpaths : ∀ failures : List SyncFailure,
      failures.map SyncFailure.path = (failures.map gist).map Prod.fst := by
    intro failures
    rw [List.map_map]
    rfl
  rw [hpaths, hgist, ← hpaths]

theorem finish_together {plan : SyncPlan} {prepared : Prepared} {resolved : Engine.Resolved}
    {resolved' : Resolved} (hplanned : PlannedAlike base plan prepared)
    (hsettled : SettledAlike resolved resolved') (hevenly : Evenly resolved.uploads) :
    Together silent (Ordinary cycle base)
      (fun result result' => ∃ done, result = .ok done ∧ ResultAlike done result')
      (finish cycle plan resolved) (uploadAndCheckpoint cycle prepared resolved') := by
  unfold finish uploadAndCheckpoint
  simp only [hsettled.signedIn, ← hsettled.uploads, hsettled.failures, List.append_nil]
  apply (runUploads_together _ hevenly hsettled.listed).bind
  rintro outcome ⟨uploaded, signedIn⟩ ⟨halike, hforgotten⟩
  have hfailures : (plan.failures ++ outcome.failures).map gist =
      (prepared.plan.failures ++ uploaded.failures).map gist := by
    simp only [List.map_append, hplanned.failures, halike.failures]
  have hheld : ∀ path, path ∈ outcome.holdBack ↔
      path ∈ (prepared.plan.failures ++ uploaded.failures).map SyncFailure.path ++
        resolved'.deferred.map Conflict.path ++ uploaded.late.map Conflict.path := by
    intro path
    rw [halike.holdBack path, paths_of_gist halike.failures, paths_of_gist hplanned.failures,
      hsettled.deferred]
    simp only [List.map_append, List.mem_append, or_assoc, or_left_comm, or_comm]
  simp only [any_fatal_of_gist hfailures]
  have hdone : ∀ checkpointError checkpointError' : Option String,
      checkpointError.isSome = checkpointError'.isSome →
      ResultAlike
        { upload := resolved.uploads, download := plan.download,
          conflicts := resolved.deferred ++ outcome.lateConflicts,
          failures := plan.failures ++ outcome.failures, checkpointError }
        { upload := uploaded.done, download := prepared.plan.download,
          conflicts := resolved'.deferred ++ uploaded.late,
          failures := prepared.plan.failures ++ uploaded.failures,
          checkpointError := checkpointError' } := fun _ _ hcheckpoint =>
    { download := hplanned.download
      conflicts := by rw [hsettled.deferred, halike.late]
      failures := hfailures
      checkpointError := hcheckpoint }
  split
  next => exact .pure ⟨_, rfl, hdone _ _ rfl⟩
  next hmild =>
    have hsession : signedIn = true := by
      cases signedIn with
      | true => rfl
      | false =>
          have hfatal := hforgotten rfl
          simp [hfatal] at hmild
    simp only [hsession, hplanned.base]
    apply (checkpoint_together hheld).bind
    intro result result' hend
    cases hend with
    | ok value value' _ => exact .pure ⟨_, rfl, hdone _ _ rfl⟩
    | error error error' => exact .pure ⟨_, rfl, hdone _ _ rfl⟩

end Complete

/-! ## The whole cycle -/

section Cycles

variable {cycle : Cycle} {base : Manifest} {answer : Prog.Answers Effect Effect.Reply}

/-- The same plan and the same result. -/
def CycleAlike (ended ended' : SyncPlan × SyncResult) : Prop :=
  PlanAlike ended.1 ended'.1 ∧ ResultAlike ended.2 ended'.2

theorem play_finish_upload (plan : SyncPlan) (resolved : Engine.Resolved)
    (events : List (Prog.Event Effect Effect.Reply)) :
    ∃ result, ((finish cycle plan resolved).play silent answer events).1 = .ok result ∧
      result.upload = resolved.uploads := by
  unfold finish
  rw [Prog.play_bind]
  dsimp only
  split
  next => exact ⟨_, rfl, rfl⟩
  next =>
    rw [Prog.play_bind]
    split
    next => exact ⟨_, rfl, rfl⟩
    next => exact ⟨_, rfl, rfl⟩

theorem completeSync_alike {plan : SyncPlan} {prepared : Prepared}
    (hplanned : PlannedAlike base plan prepared) {resolutions : List ConflictResolution}
    (hone : ∀ conflict ∈ plan.conflicts,
      (resolutions.filter fun resolution => resolution.path = conflict.path).length ≤ 1)
    {events : List (Prog.Event Effect Effect.Reply)}
    (hanswer : ∀ later, events <+: later → ∀ effect,
      OrdinarySmooth cycle base effect (answer later effect))
    (hevenly : ∀ result,
      ((Engine.completeSync cycle.keys plan resolutions).play silent answer events).1 = .ok result →
        Evenly result.upload) :
    let native := (Engine.completeSync cycle.keys plan resolutions).play silent answer events
    let browser := (completeSync cycle prepared resolutions).play silent answer events
    native.2 = browser.2 ∧ BothEnd ResultAlike native.1 browser.1 := by
  have hstart : SettledAlike ⟨plan.upload, []⟩ ⟨prepared.plan.upload, [], [], prepared.signedIn⟩ :=
    ⟨hplanned.upload, rfl, rfl, hplanned.signedIn, hplanned.listed⟩
  obtain ⟨hresolved, hsame⟩ :=
    (applyResolutions_together plan.conflicts hone hstart).play hanswer
  have hlater := Prog.prefix_play silent answer
    (Engine.applyResolutions cycle.keys resolutions plan.conflicts ⟨plan.upload, []⟩) events
  rw [completeSync_eq] at hevenly ⊢
  simp only [completeSync, ← hplanned.conflicts, Prog.play_bind] at hevenly ⊢
  rw [hsame] at hlater hevenly ⊢
  generalize (Prog.play silent answer (applyResolutions cycle resolutions plan.conflicts
    ⟨prepared.plan.upload, [], [], prepared.signedIn⟩) events).2 = middle at hlater hevenly ⊢
  generalize (Prog.play silent answer (Engine.applyResolutions cycle.keys resolutions plan.conflicts
    ⟨plan.upload, []⟩) events).1 = found at hresolved hevenly ⊢
  generalize (Prog.play silent answer (applyResolutions cycle resolutions plan.conflicts
    ⟨prepared.plan.upload, [], [], prepared.signedIn⟩) events).1 = found' at hresolved ⊢
  cases hresolved with
  | error error error' => exact ⟨rfl, .error _ _⟩
  | ok resolved resolved' hsettled =>
      obtain ⟨ended, hended, hupload⟩ := play_finish_upload plan resolved middle
      have heven : Evenly resolved.uploads := hupload ▸ hevenly ended hended
      obtain ⟨⟨done, hdone, halike⟩, hevents⟩ := (finish_together hplanned hsettled heven).play
        fun later hmore effect => (hanswer later (hlater.trans hmore) effect).1
      simp only [Prog.play_bind]
      refine ⟨hevents, ?_⟩
      rw [hdone]
      exact .ok _ _ halike

/-- Under the same answers both cycles do the same, in the same order: the files
they write and delete, the operations they send and how these are batched, and
the base they save; and they end with the same conflicts and failed paths. The
answers are ordinary, resolving the conflicts meets no error, and the size of
deletions makes no difference to the batches. -/
theorem cycles_agree (hreadable : Readable cycle base)
    (hordinary : ∀ events effect, Ordinary cycle base effect (answer events effect))
    (hsmooth : ∀ events conflicts resolutions, ⟨.ask conflicts, resolutions⟩ ∈ events →
      ∀ effect, Smooth cycle effect (answer events effect))
    (hevenly : ∀ plan result,
      ((Engine.cycle cycle.keys cycle.ignore).play silent answer []).1 = .ok (plan, result) →
        Evenly result.upload) :
    let native := (Engine.cycle cycle.keys cycle.ignore).play silent answer []
    let browser := cycle.run.play silent answer []
    native.2 = browser.2 ∧ BothEnd CycleAlike native.1 browser.1 := by
  obtain ⟨hprepared, hsame⟩ := (prepareSync_together hreadable).play
    fun later (_ : [] <+: later) effect => hordinary later effect
  simp only [Engine.cycle, Cycle.run, Prog.play_bind] at hevenly ⊢
  rw [hsame] at hevenly ⊢
  generalize (Prog.play silent answer (prepareSync cycle) []).2 = events at hevenly ⊢
  generalize (Prog.play silent answer (Engine.prepareSync cycle.keys cycle.ignore) []).1 = planned
    at hprepared hevenly ⊢
  generalize (Prog.play silent answer (prepareSync cycle) []).1 = prepared at hprepared ⊢
  cases hprepared with
  | error error error' => exact ⟨rfl, .error _ _⟩
  | ok plan prepared hplanned =>
      obtain ⟨plan', base', signedIn⟩ := prepared
      obtain ⟨upload', download', conflicts', failures'⟩ := plan'
      obtain rfl : plan.conflicts = conflicts' := hplanned.conflicts
      have hone := hordinary events (.ask plan.conflicts)
      have hasked : silent (.ask plan.conflicts) = false := rfl
      simp only [Prog.play_bind, Prog.play_perform silent answer hasked] at hevenly ⊢
      generalize hresolutions : answer events (.ask plan.conflicts) = resolutions at hone hevenly ⊢
      have hmem : (⟨.ask plan.conflicts, resolutions⟩ : Prog.Event Effect Effect.Reply) ∈
          events ++ [⟨.ask plan.conflicts, resolutions⟩] := by simp
      generalize events ++ [⟨.ask plan.conflicts, resolutions⟩] = events at hmem hevenly ⊢
      have hanswer : ∀ later, events <+: later → ∀ effect,
          OrdinarySmooth cycle base effect (answer later effect) := fun later hlater effect =>
        ⟨hordinary later effect, hsmooth later _ _ (hlater.subset hmem) effect⟩
      have huploads : ∀ result, ((Engine.completeSync cycle.keys plan resolutions).play silent
          answer events).1 = .ok result → Evenly result.upload := fun result hresult =>
        hevenly plan result (by rw [hresult]; rfl)
      obtain ⟨hsame, hfinished⟩ := completeSync_alike hplanned hone hanswer huploads
      rw [hsame]
      generalize (Prog.play silent answer (Engine.completeSync cycle.keys plan resolutions)
        events).1 = ended at hfinished ⊢
      generalize (Prog.play silent answer (completeSync cycle _ resolutions) events).1 = ended'
        at hfinished ⊢
      cases hfinished with
      | error error error' => exact ⟨rfl, .error _ _⟩
      | ok result result' halike => exact ⟨rfl, .ok _ _ ⟨hplanned.toPlanAlike, halike⟩⟩

end Cycles

/-! ## A note in conflict and one to fetch -/

def sampleCycle : Cycle where
  keys := .sample
  ignore := .defaults
  root := .file ⟨"note", by decide, by decide⟩ ⟨[104, 105], 1⟩ .nil
  errorField := fun _ => none

/-- A row that both clients can name. -/
def sampleRow (path hash : String) : FileEntry :=
  { hash, modified := 3, size := 1, encPath := Crypto.sample.encryptPath Aead.zeroNonce path }

def sampleRows : Manifest :=
  ((∅ : Manifest).insert "t1" (sampleRow "note" "h1")).insert "t2" (sampleRow "todo" "h2")

/-- The note is kept in both versions, everything goes well. -/
def sampleAnswer : Prog.Answers Effect Effect.Reply := fun _ effect =>
  match effect with
  | .loadLocalState => .ok (∅, sampleCycle.root.folder, 9)
  | .loadRemoteCache => none
  | .getManifest _ => .ok (.rows sampleRows "\"2\"")
  | .saveRemoteCache _ => .ok ()
  | .deleteLocalFile _ => .ok ()
  | .pick => 0
  | .getFile _ => .ok (Crypto.sample.encrypt Aead.zeroNonce [1])
  | .writeFile _ _ => .ok ()
  | .ask [conflict] => [⟨conflict.path, .keepBoth⟩]
  | .ask _ => []
  | .statFile _ => .ok ⟨[1], 9⟩
  | .sealFile _ => .ok (Crypto.sample.encrypt Aead.zeroNonce [1])
  | .sendBatch => .ok ()
  | .applyOp _ => .ok .alreadyThere
  | .receiveBatch => .ok ()
  | .readBatch => .ok ()
  | .loadBase => .ok ∅
  | .saveBase _ => .ok ()

theorem sampleCycle_readable : Readable sampleCycle ∅ where
  alike file hfile := by
    obtain rfl : file = ([⟨"note", by decide, by decide⟩], ⟨[104, 105], 1⟩) :=
      List.mem_singleton.mp hfile
    refine ⟨?_, Or.inl (by decide)⟩
    rintro ⟨-, dir, rest, hdir, hrest, heq, -⟩
    have hlength := congrArg List.length heq
    have hdirs := List.length_pos_iff.mpr hdir
    have hnames := List.length_pos_iff.mpr hrest
    simp only [List.length_singleton, List.length_append] at hlength
    omega
  files := by decide +kernel
  base _ _ := Std.ExtTreeMap.not_mem_empty

theorem sampleAnswer_ordinary (events : List (Prog.Event Effect Effect.Reply)) (effect : Effect) :
    Ordinary sampleCycle ∅ effect (sampleAnswer events effect) := by
  cases effect with
  | loadLocalState =>
      rintro found folder now ⟨rfl, rfl, rfl⟩
      exact ⟨rfl, rfl⟩
  | loadRemoteCache => rintro cache ⟨⟩
  | getManifest ifNoneMatch =>
      refine ⟨fun _ hsame => (by cases hsame), ?_⟩
      rintro rows etag manifest hrows hdecode
      cases hrows
      have hnames : ((decodeManifest .sample sampleRows).toOption.all fun manifest =>
          "__proto__" ∉ manifest) = true := by decide +kernel
      change decodeManifest .sample sampleRows = .ok manifest at hdecode
      rw [hdecode] at hnames
      exact of_decide_eq_true hnames
  | ask conflicts =>
      rcases conflicts with _ | ⟨first, _ | ⟨second, others⟩⟩
      · simp [Ordinary]
      · simp [Ordinary, sampleAnswer]
      · simp [Ordinary, sampleAnswer]
  | getFile path => rintro error ⟨⟩
  | writeFile path content => rintro error ⟨⟩
  | sendBatch => rintro error ⟨⟩
  | receiveBatch => rintro error ⟨⟩
  | readBatch => rintro error ⟨⟩
  | applyOp op => rintro error ⟨⟩
  | loadBase => rfl
  | _ => trivial

theorem cycles_agree_in_sample :
    let native := (Engine.cycle sampleCycle.keys sampleCycle.ignore).play silent sampleAnswer []
    let browser := sampleCycle.run.play silent sampleAnswer []
    native.1.toOption.isSome = true ∧ native.2 = browser.2 ∧
      BothEnd CycleAlike native.1 browser.1 := by
  refine ⟨by decide +kernel, ?_⟩
  refine cycles_agree sampleCycle_readable sampleAnswer_ordinary ?_ ?_
  · intro events conflicts resolutions _ effect
    cases effect with
    | deleteLocalFile path => rfl
    | writeFile path content => rfl
    | statFile path => exact ⟨_, rfl⟩
    | getFile path => exact ⟨_, [1], rfl, by decide +kernel⟩
    | _ => trivial
  · intro plan result hresult
    have heven : (((Engine.cycle sampleCycle.keys sampleCycle.ignore).play silent sampleAnswer
        []).1.toOption.all fun ended =>
          decide (Engine.batches ended.2.upload = batches ended.2.upload)) = true := by
      decide +kernel
    rw [hresult] at heven
    have hsame : Engine.batches result.upload = batches result.upload := of_decide_eq_true heven
    exact hsame

end ObSink.Web
