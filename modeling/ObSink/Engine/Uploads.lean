import ObSink.Engine.Batches
import ObSink.Lib.Transcript

/-! # The upload phase, whatever the server answers

`run_uploads` of `core/src/sync_engine.rs` over any way to prepare an operation
and to send a batch. `engine` is the one of `Engine.Cycle`, where the server of
this repository answers; with `wire` the folder and the server answer anything
at all, and what comes back goes through `ApiClient::batch` of
`core/src/api_client.rs`.
-/

namespace ObSink.Engine

open Prog (Transcript perform transcript_bind transcript_pure)

/-! ## The phase over a carrier -/

/-- How an upload is prepared and a batch is sent. -/
structure Carrier (Op : Type) (Reply : Op → Type) where
  prepareBatchOp : SyncAction → Prog Op Reply (Except SyncEngineError (Option BatchOp))
  batch : List BatchOp → Prog Op Reply (Except ApiError (List BatchOperationResult))

namespace Carrier

variable {Op : Type} {Reply : Op → Type} (carrier : Carrier Op Reply)

def prepareBatch : List SyncAction → UploadOutcome →
    Prog Op Reply (List (SyncAction × BatchOp) × UploadOutcome)
  | [], outcome => pure ([], outcome)
  | action :: rest, outcome => do
      match ← carrier.prepareBatchOp action with
      | .ok (some op) =>
          let (members, outcome) ← prepareBatch rest outcome
          return ((action, op) :: members, outcome)
      | .ok none => prepareBatch rest { outcome with succeeded := outcome.succeeded + 1 }
      | .error error => prepareBatch rest (outcome.fail action error.text false)

/-- One batch; whether it stops the remaining ones. -/
def runBatch (actions : List SyncAction) (outcome : UploadOutcome) :
    Prog Op Reply (UploadOutcome × Bool) := do
  let (members, outcome) ← carrier.prepareBatch actions outcome
  if members.isEmpty then pure (outcome, false)
  else
    match ← carrier.batch (members.map Prod.snd) with
    | .error error =>
        let fatal := isFatalApiError error
        let message := error.text
        pure (members.foldl (fun outcome member => outcome.fail member.1 message fatal) outcome,
          fatal)
    | .ok results => pure (accountResults ((members.map Prod.fst).zip results) outcome)

def runBatches : List (List SyncAction) → UploadOutcome → Prog Op Reply UploadOutcome
  | [], outcome => pure outcome
  | actions :: rest, outcome => do
      let (outcome, stop) ← carrier.runBatch actions outcome
      if stop then pure outcome else runBatches rest outcome

def runUploads (uploads : List SyncAction) (holdBack : List String) : Prog Op Reply UploadOutcome :=
  carrier.runBatches (batches uploads) ⟨0, [], [], holdBack⟩

end Carrier

/-- The server of this repository answers. -/
def engine : Carrier Effect Effect.Reply where
  prepareBatchOp := Engine.prepareBatchOp
  batch ops := Engine.batch ops maxAttempts

theorem engine_prepareBatch (actions : List SyncAction) (outcome : UploadOutcome) :
    engine.prepareBatch actions outcome = prepareBatch actions outcome := by
  induction actions generalizing outcome with
  | nil => rfl
  | cons action rest ih =>
      rw [Carrier.prepareBatch, prepareBatch]
      congr 1
      funext reply
      cases reply with
      | error error => exact ih _
      | ok op =>
          cases op with
          | none => exact ih _
          | some op => simp only [ih]

theorem engine_runBatches (groups : List (List SyncAction)) (outcome : UploadOutcome) :
    engine.runBatches groups outcome = runBatches groups outcome := by
  induction groups generalizing outcome with
  | nil => rfl
  | cons actions rest ih =>
      rw [Carrier.runBatches, runBatches]
      have hbatch : engine.runBatch actions outcome = runBatch actions outcome := by
        rw [Carrier.runBatch, runBatch, engine_prepareBatch]
        rfl
      rw [hbatch]
      congr 1
      funext done
      simp only [ih]

/-- The upload phase of a cycle is the one here. -/
theorem engine_runUploads (uploads : List SyncAction) (held : List String) :
    engine.runUploads uploads held = runUploads uploads held :=
  engine_runBatches (batches uploads) _

/-! ## Any server -/

/-- What sending the form of a batch once comes to: the form could not be
built, no response came, or a response with its status and its body, both as
JSON and as text. -/
inductive Posted where
  | unbuilt (error : ApiError)
  | lost (kind : HttpErrorKind) (message : String)
  | response (status : Nat) (json : Except (HttpErrorKind × String) (List BatchOperationResult))
      (text : String)
  deriving DecidableEq

/-- What the upload phase asks of the folder and of the server. -/
inductive Wire where
  | readAndEncrypt (path : String)
  | post (ops : List BatchOp)
  deriving DecidableEq

@[reducible] def Wire.Reply : Wire → Type
  | .readAndEncrypt _ => Except SyncEngineError Bytes
  | .post _ => Posted

/-- The body of a response, unless its status is an error. -/
def parseJson (status : Nat)
    (json : Except (HttpErrorKind × String) (List BatchOperationResult)) (text : String) :
    Except ApiError (List BatchOperationResult) :=
  if 200 ≤ status ∧ status ≤ 299 then
    match json with
    | .ok results => .ok results
    | .error (kind, message) => .error (.http kind message)
  else if status = 401 then .error .unauthorized
  else .error (.unexpectedStatus status text)

/-- One result for each operation, under the operation's real path. -/
def matchResults (ops : List BatchOp) (results : List BatchOperationResult) :
    Except ApiError (List BatchOperationResult) :=
  if results.length ≠ ops.length then
    .error (.unexpectedStatus 502
      ("batch answered " ++ Text.numeral results.length ++ " results for " ++
        Text.numeral ops.length ++ " operations"))
  else .ok (List.zipWith (fun op result => { result with path := op.path }) ops results)

/-- `ApiClient::batch`: the form again while attempts are left and the failure
is transient. -/
def postBatch (ops : List BatchOp) :
    (attempts : Nat) → Prog Wire Wire.Reply (Except ApiError (List BatchOperationResult))
  | 0 => pure (.error (.http .request "no attempt left"))
  | attempts + 1 => do
      match ← perform (Wire.post ops) with
      | .unbuilt error => pure (.error error)
      | .lost kind message =>
          if attempts = 0 ∨ isTransient (.http kind message) = false then
            pure (.error (.http kind message))
          else postBatch ops attempts
      | .response status json text =>
          pure (parseJson status json text >>= matchResults ops)

/-- The folder and the server answer anything. -/
def wire : Carrier Wire Wire.Reply where
  prepareBatchOp action :=
    match action.kind with
    | .upload => do
        match ← perform (Wire.readAndEncrypt action.path) with
        | .error error => pure (.error error)
        | .ok content =>
            return .ok (some (.put action.path (parentHash action)
              ((action.localEntry.map FileEntry.hash).getD "") content))
    | .deleteRemote => pure (.ok (some (.delete action.path (parentHash action))))
    | .download | .deleteLocal => pure (.ok none)
  batch ops := postBatch ops maxAttempts

/-- A batch that gets through has a result for each operation. -/
def Carrier.Counted {Op : Type} {Reply : Op → Type} (carrier : Carrier Op Reply) : Prop :=
  ∀ ops events results, Transcript (carrier.batch ops) events (.ok results) →
    results.length = ops.length

theorem matchResults_length {ops : List BatchOp} {answer results : List BatchOperationResult}
    (hmatch : matchResults ops answer = .ok results) : results.length = ops.length := by
  unfold matchResults at hmatch
  split at hmatch
  next => cases hmatch
  next hlength =>
    rw [← Except.ok.inj hmatch, List.length_zipWith, not_not.mp hlength, Nat.min_self]

theorem postBatch_length {ops : List BatchOp} {attempts : Nat} {events : List (Σ op, Wire.Reply op)}
    {results : List BatchOperationResult}
    (hrun : Transcript (postBatch ops attempts) events (.ok results)) :
    results.length = ops.length := by
  induction attempts generalizing events with
  | zero => exact absurd (transcript_pure.mp hrun).2 (by simp)
  | succ attempts ih =>
      rw [postBatch, transcript_bind] at hrun
      obtain ⟨first, posted, second, _, _, hrun⟩ := hrun
      cases posted with
      | unbuilt error => exact absurd (transcript_pure.mp hrun).2 (by simp)
      | lost kind message =>
          simp only at hrun
          split at hrun
          next => exact absurd (transcript_pure.mp hrun).2 (by simp)
          next => exact ih hrun
      | response status json text =>
          have hresults := (transcript_pure.mp hrun).2
          cases hparsed : parseJson status json text with
          | error error =>
              rw [hparsed] at hresults
              cases hresults
          | ok answer =>
              rw [hparsed] at hresults
              exact matchResults_length hresults.symm

theorem wire_counted : wire.Counted :=
  fun _ _ _ hrun => postBatch_length hrun

/-! ## What becomes of each upload -/

/-- One upload of a batch that was run: nothing to send for its kind, not
readable, or sent and answered. A request that failed answers every operation
in it. -/
inductive Entry where
  | nothing (action : SyncAction)
  | unreadable (action : SyncAction) (error : SyncEngineError)
  | sent (action : SyncAction) (op : BatchOp) (reply : Except ApiError BatchOperationResult)

namespace Entry

def action : Entry → SyncAction
  | .nothing action => action
  | .unreadable action _ => action
  | .sent action _ _ => action

/-- How preparing the upload went. -/
def prepared : Entry → Except SyncEngineError (Option BatchOp)
  | .nothing _ => .ok none
  | .unreadable _ error => .error error
  | .sent _ op _ => .ok (some op)

def op? : Entry → Option BatchOp
  | .sent _ op _ => some op
  | _ => none

def reply? : Entry → Option (Except ApiError BatchOperationResult)
  | .sent _ _ reply => some reply
  | _ => none

@[simp] theorem op?_nothing (action : SyncAction) : (nothing action).op? = none := rfl

@[simp] theorem op?_unreadable (action : SyncAction) (error : SyncEngineError) :
    (unreadable action error).op? = none := rfl

@[simp] theorem op?_sent (action : SyncAction) (op : BatchOp)
    (reply : Except ApiError BatchOperationResult) : (sent action op reply).op? = some op := rfl

def succeeded : Entry → Bool
  | .nothing _ => true
  | .unreadable _ _ => false
  | .sent _ _ (.error _) => false
  | .sent _ _ (.ok result) => 200 ≤ result.status ∧ result.status ≤ 299

def late? : Entry → Option Conflict
  | .sent action _ (.ok result) =>
      if result.status = 409 then
        some ⟨action.path, action.localEntry.getD {},
          (result.conflict.bind ServerConflict.current).getD { deleted := true }⟩
      else none
  | _ => none

def failure? : Entry → Option SyncFailure
  | .nothing _ => none
  | .unreadable action error => some ⟨action.path, action.kind, error.text, false⟩
  | .sent action _ (.error error) =>
      some ⟨action.path, action.kind, error.text, isFatalApiError error⟩
  | .sent action _ (.ok result) =>
      if (200 ≤ result.status ∧ result.status ≤ 299) ∨ result.status = 409 then none
      else
        some ⟨action.path, action.kind,
          "api error: batch operation answered " ++ Text.numeral result.status,
          isFatalStatus result.status⟩

/-- An upload that was run succeeded, failed or met a late conflict, and only
one of these. -/
theorem fate (entry : Entry) :
    (entry.succeeded = true ∧ entry.failure? = none ∧ entry.late? = none) ∨
    (entry.succeeded = false ∧ entry.failure?.isSome = true ∧ entry.late? = none) ∨
    (entry.succeeded = false ∧ entry.failure? = none ∧ entry.late?.isSome = true) := by
  cases entry with
  | nothing action => exact Or.inl ⟨rfl, rfl, rfl⟩
  | unreadable action error => exact Or.inr (Or.inl ⟨rfl, rfl, rfl⟩)
  | sent action op reply =>
      cases reply with
      | error error => exact Or.inr (Or.inl ⟨rfl, rfl, rfl⟩)
      | ok result =>
          by_cases hok : 200 ≤ result.status ∧ result.status ≤ 299
          · have hnot : result.status ≠ 409 := by omega
            simp [succeeded, failure?, late?, hok, hnot]
          · by_cases hlate : result.status = 409
            · simp [succeeded, failure?, late?, hlate]
            · simp only [succeeded, failure?, late?, hok, hlate, decide_false, false_or, if_false]
              simp

theorem late_path {entry : Entry} {conflict : Conflict} (hlate : entry.late? = some conflict) :
    conflict.path = entry.action.path := by
  unfold late? at hlate
  split at hlate
  · split at hlate
    · exact congrArg Conflict.path (Option.some.inj hlate).symm
    · cases hlate
  · cases hlate

end Entry

/-- The outcome is what the entries come to, and the paths added to `held` are
those of the failures and late conflicts. The failures of a batch come in the
order they were met: members that could not be read before answers. -/
structure UploadOutcome.Books (held : List String) (entries : List Entry)
    (outcome : UploadOutcome) :
    Prop where
  succeeded : outcome.succeeded = entries.countP Entry.succeeded
  failures : outcome.failures.Perm (entries.filterMap Entry.failure?)
  lateConflicts : outcome.lateConflicts = entries.filterMap Entry.late?
  holdBack : ∀ path, path ∈ outcome.holdBack ↔ path ∈ held ∨
    (∃ failure ∈ outcome.failures, failure.path = path) ∨
    ∃ conflict ∈ outcome.lateConflicts, conflict.path = path

namespace UploadOutcome.Books

variable {held : List String} {entries : List Entry} {outcome : UploadOutcome}

theorem start (held : List String) : Books held [] ⟨0, [], [], held⟩ where
  succeeded := rfl
  failures := List.Perm.refl _
  lateConflicts := rfl
  holdBack path := by simp

theorem done (hbooks : Books held entries outcome) {entry : Entry}
    (hsucceeded : entry.succeeded = true) :
    Books held (entries ++ [entry]) { outcome with succeeded := outcome.succeeded + 1 } := by
  have hfate := entry.fate
  rw [hsucceeded] at hfate
  have hnone : entry.failure? = none ∧ entry.late? = none := by simpa using hfate
  apply Books.mk
  · simp [hbooks.succeeded, hsucceeded]
  · simpa [hnone.1] using hbooks.failures
  · simpa [hnone.2] using hbooks.lateConflicts
  · exact hbooks.holdBack

theorem fail (hbooks : Books held entries outcome) {entry : Entry} {message : String}
    {fatal : Bool} (hfailure : entry.failure? =
      some ⟨entry.action.path, entry.action.kind, message, fatal⟩) :
    Books held (entries ++ [entry]) (outcome.fail entry.action message fatal) := by
  have hfate := entry.fate
  rw [hfailure] at hfate
  have hrest : entry.succeeded = false ∧ entry.late? = none := by simpa using hfate
  apply Books.mk
  · simp [UploadOutcome.fail, hbooks.succeeded, hrest.1]
  · simpa [UploadOutcome.fail, hfailure] using hbooks.failures.append_right _
  · simpa [UploadOutcome.fail, hrest.2] using hbooks.lateConflicts
  · intro path
    have hsymm : path = entry.action.path ↔ entry.action.path = path := eq_comm
    simp only [UploadOutcome.fail, List.mem_append, List.mem_singleton,
      hbooks.holdBack, or_and_right, exists_or, exists_eq_left, hsymm, or_assoc]
    rw [or_comm (a := entry.action.path = path)]

theorem refuse (hbooks : Books held entries outcome) {entry : Entry} {conflict : Conflict}
    (hlate : entry.late? = some conflict) :
    Books held (entries ++ [entry])
      { outcome with
        holdBack := outcome.holdBack ++ [entry.action.path]
        lateConflicts := outcome.lateConflicts ++ [conflict] } := by
  have hfate := entry.fate
  rw [hlate] at hfate
  have hrest : entry.succeeded = false ∧ entry.failure? = none := by simpa using hfate
  have hpath := Entry.late_path hlate
  apply Books.mk
  · simp [hbooks.succeeded, hrest.1]
  · simpa [hrest.2] using hbooks.failures
  · simp [hlate, hbooks.lateConflicts]
  · intro path
    have hsymm : path = entry.action.path ↔ entry.action.path = path := eq_comm
    simp only [List.mem_append, List.mem_singleton, hbooks.holdBack, or_and_right, exists_or,
      exists_eq_left, hpath, hsymm, or_assoc]

/-- Each upload is in the outcome exactly once. -/
theorem length (hbooks : Books held entries outcome) :
    outcome.succeeded + outcome.failures.length + outcome.lateConflicts.length =
      entries.length := by
  rw [hbooks.succeeded, hbooks.failures.length_eq, hbooks.lateConflicts]
  clear hbooks
  induction entries with
  | nil => rfl
  | cons entry rest ih =>
      rcases entry.fate with ⟨hsucceeded, hfailure, hlate⟩ | ⟨hsucceeded, hfailure, hlate⟩ |
        ⟨hsucceeded, hfailure, hlate⟩
      · simp only [List.countP_cons, List.filterMap_cons, hsucceeded, hfailure, hlate,
          List.length_cons, if_true]
        omega
      · obtain ⟨failure, hfailure⟩ := Option.isSome_iff_exists.mp hfailure
        simp only [List.countP_cons, List.filterMap_cons, hsucceeded, hfailure, hlate,
          List.length_cons, Bool.false_eq_true, if_false]
        omega
      · obtain ⟨conflict, hlate⟩ := Option.isSome_iff_exists.mp hlate
        simp only [List.countP_cons, List.filterMap_cons, hsucceeded, hfailure, hlate,
          List.length_cons, Bool.false_eq_true, if_false]
        omega

/-- The members that were sent may be accounted for after the others. -/
theorem merge {prior : List Entry} (hbooks : Books held
    (prior ++ (entries.filter fun entry => entry.op?.isNone) ++
      entries.filter fun entry => entry.op?.isSome) outcome) :
    Books held (prior ++ entries) outcome := by
  have hperm : ((entries.filter fun entry => entry.op?.isNone) ++
      entries.filter fun entry => entry.op?.isSome).Perm entries := by
    have hflip : (fun entry : Entry => entry.op?.isSome) = fun entry => !entry.op?.isNone := by
      funext entry
      cases entry.op? <;> rfl
    rw [hflip]
    exact List.filter_append_perm _ _
  have hall := hperm.append_left prior
  rw [← List.append_assoc] at hall
  apply Books.mk
  · rw [hbooks.succeeded]
    exact hall.countP_eq _
  · exact hbooks.failures.trans (hall.filterMap _)
  · rw [hbooks.lateConflicts]
    simp only [List.filterMap_append, List.append_assoc]
    congr 1
    clear hbooks hperm hall
    induction entries with
    | nil => rfl
    | cons entry rest ih =>
        -- only what was sent can meet a late conflict
        cases entry with
        | nothing action => exact ih
        | unreadable action error => exact ih
        | sent action op reply =>
            have hnone :
                (rest.filter fun entry => entry.op?.isNone).filterMap Entry.late? = [] := by
              rw [List.filterMap_eq_nil_iff]
              intro other hother
              have hop := (List.mem_filter.mp hother).2
              cases other with
              | nothing action => rfl
              | unreadable action error => rfl
              | sent action op reply => cases hop
            rw [hnone, List.nil_append] at ih
            simp [List.filter_cons, List.filterMap_cons, hnone, ih]
  · exact hbooks.holdBack

/-- One result, accounted for under the operation it answers. -/
theorem account (hbooks : Books held entries outcome) (action : SyncAction) (op : BatchOp)
    (result : BatchOperationResult) :
    Books held (entries ++ [.sent action op (.ok result)])
      (accountResult outcome action result).1 := by
  unfold accountResult
  split
  next hok => exact hbooks.done (by simp [Entry.succeeded, hok])
  next hbad =>
    split
    next hlate =>
      exact @refuse held entries outcome hbooks (.sent action op (.ok result)) _
        (by simp [Entry.late?, hlate])
    next hother =>
      exact @fail held entries outcome hbooks (.sent action op (.ok result)) _ _
        (by simp [Entry.failure?, hbad, hother, Entry.action])

theorem accountAll (hbooks : Books held entries outcome) {members : List (SyncAction × BatchOp)}
    {results : List BatchOperationResult} (hlength : results.length = members.length) :
    Books held
      (entries ++ List.zipWith (fun member result => .sent member.1 member.2 (.ok result))
        members results)
      (accountResults ((members.map Prod.fst).zip results) outcome).1 := by
  induction members generalizing entries outcome results with
  | nil => simpa [accountResults] using hbooks
  | cons member rest ih =>
      cases results with
      | nil => simp at hlength
      | cons result later =>
          have hrest := ih (hbooks.account member.1 member.2 result) (by simpa using hlength)
          simpa [accountResults] using hrest

theorem failAll (hbooks : Books held entries outcome) (members : List (SyncAction × BatchOp))
    (error : ApiError) :
    Books held (entries ++ members.map fun member => .sent member.1 member.2 (.error error))
      (members.foldl
        (fun outcome member =>
          outcome.fail member.1 error.text (isFatalApiError error)) outcome) := by
  induction members generalizing entries outcome with
  | nil => simpa using hbooks
  | cons member rest ih =>
      have hhead :=
        @fail held entries outcome hbooks (.sent member.1 member.2 (.error error)) _ _ rfl
      have hrest := ih hhead
      simpa [Entry.action] using hrest

end UploadOutcome.Books

/-! ## Batch by batch -/

section BatchRuns

variable {Op : Type} {Reply : Op → Type} (carrier : Carrier Op Reply)

/-- The members of a batch are prepared in order. -/
inductive Prepares : List Entry → List (Σ op : Op, Reply op) → Prop
  | nil : Prepares [] []
  | cons {entry : Entry} {rest : List Entry} {first later : List (Σ op : Op, Reply op)}
      (hentry : Transcript (carrier.prepareBatchOp entry.action) first entry.prepared)
      (hrest : Prepares rest later) : Prepares (entry :: rest) (first ++ later)

/-- What the answer to a batch says to each of its operations, in order. -/
def repliesTo (answer : Except ApiError (List BatchOperationResult)) (count : Nat) :
    List (Except ApiError BatchOperationResult) :=
  match answer with
  | .ok results => results.map .ok
  | .error error => List.replicate count (.error error)

/-- One batch: the operations that could be prepared are sent, and each has the
reply at its place in the answer. -/
inductive BatchRun : List Entry → List (Σ op : Op, Reply op) → Prop
  | idle {entries : List Entry} {events : List (Σ op : Op, Reply op)}
      (hprepares : Prepares carrier entries events) (hnone : entries.filterMap Entry.op? = []) :
      BatchRun entries events
  | sent {entries : List Entry} {preparing sending : List (Σ op : Op, Reply op)}
      {answer : Except ApiError (List BatchOperationResult)}
      (hprepares : Prepares carrier entries preparing)
      (hbatch : Transcript (carrier.batch (entries.filterMap Entry.op?)) sending answer)
      (hreplies : entries.filterMap Entry.reply? =
        repliesTo answer (entries.filterMap Entry.op?).length) :
      BatchRun entries (preparing ++ sending)

/-- The batches that were run, one after the other. -/
inductive BatchRuns : List (List Entry) → List (Σ op : Op, Reply op) → Prop
  | nil : BatchRuns [] []
  | cons {entries : List Entry} {rest : List (List Entry)}
      {first later : List (Σ op : Op, Reply op)}
      (hfirst : BatchRun carrier entries first) (hrest : BatchRuns rest later) :
      BatchRuns (entries :: rest) (first ++ later)

variable {carrier} {held : List String} {prior : List Entry} {outcome : UploadOutcome}

/-- The entries of a batch once its operations have been answered. -/
structure Dealt (held : List String) (prior : List Entry) (carrier : Carrier Op Reply)
    (actions : List SyncAction) (members : List (SyncAction × BatchOp))
    (replies : List (Except ApiError BatchOperationResult)) (events : List (Σ op : Op, Reply op))
    (prepared : UploadOutcome) (entries : List Entry) : Prop where
  actions : entries.map Entry.action = actions
  prepares : Prepares carrier entries events
  sent : (entries.filter fun entry => entry.op?.isSome) =
    List.zipWith (fun member reply => .sent member.1 member.2 reply) members replies
  books : prepared.Books held (prior ++ entries.filter fun entry => entry.op?.isNone)

theorem exists_dealt (hbooks : outcome.Books held prior) {actions : List SyncAction}
    {events : List (Σ op : Op, Reply op)} {members : List (SyncAction × BatchOp)}
    {prepared : UploadOutcome}
    (hrun : Transcript (carrier.prepareBatch actions outcome) events (members, prepared))
    {replies : List (Except ApiError BatchOperationResult)}
    (hlength : replies.length = members.length) :
    ∃ entries, Dealt held prior carrier actions members replies events prepared entries := by
  induction actions generalizing prior outcome events members replies with
  | nil =>
      obtain ⟨rfl, hend⟩ := transcript_pure.mp hrun
      obtain ⟨rfl, rfl⟩ := Prod.mk.inj hend
      exact ⟨[], rfl, .nil, by simp, by simpa using hbooks⟩
  | cons action rest ih =>
      rw [Carrier.prepareBatch, transcript_bind] at hrun
      obtain ⟨first, reply, later, rfl, hfirst, hrun⟩ := hrun
      cases reply with
      | error error =>
          have hnoted := @UploadOutcome.Books.fail held prior outcome hbooks
            (.unreadable action error) _ _ rfl
          obtain ⟨entries, hdealt⟩ := ih hnoted hrun hlength
          refine ⟨.unreadable action error :: entries, ?_, .cons hfirst hdealt.prepares,
            hdealt.sent, ?_⟩
          · rw [List.map_cons, hdealt.actions]
            rfl
          · simpa [List.filter_cons] using hdealt.books
      | ok op =>
          cases op with
          | none =>
              have hnoted :=
                @UploadOutcome.Books.done held prior outcome hbooks (.nothing action) rfl
              obtain ⟨entries, hdealt⟩ := ih hnoted hrun hlength
              refine ⟨.nothing action :: entries, ?_, .cons hfirst hdealt.prepares, hdealt.sent, ?_⟩
              · rw [List.map_cons, hdealt.actions]
                rfl
              · simpa [List.filter_cons] using hdealt.books
          | some op =>
              simp only [transcript_bind] at hrun
              obtain ⟨second, ⟨others, after⟩, final, rfl, hsecond, hend⟩ := hrun
              obtain ⟨rfl, hpair⟩ := transcript_pure.mp hend
              obtain ⟨rfl, rfl⟩ := Prod.mk.inj hpair
              cases replies with
              | nil => simp at hlength
              | cons reply replies =>
                  obtain ⟨entries, hdealt⟩ := ih hbooks hsecond
                    (show replies.length = others.length by simpa using hlength)
                  refine ⟨.sent action op reply :: entries, ?_, ?_, ?_, ?_⟩
                  · rw [List.map_cons, hdealt.actions]
                    rfl
                  · rw [List.append_nil]
                    exact .cons hfirst hdealt.prepares
                  · simpa [List.filter_cons] using hdealt.sent
                  · simpa [List.filter_cons] using hdealt.books

theorem filterMap_op? (entries : List Entry) :
    entries.filterMap Entry.op? =
      (entries.filter fun entry => entry.op?.isSome).filterMap Entry.op? := by
  induction entries with
  | nil => rfl
  | cons entry rest ih => cases entry <;> simp [List.filter_cons, List.filterMap_cons, ih]

theorem filterMap_reply? (entries : List Entry) :
    entries.filterMap Entry.reply? =
      (entries.filter fun entry => entry.op?.isSome).filterMap Entry.reply? := by
  induction entries with
  | nil => rfl
  | cons entry rest ih =>
      cases entry <;> simp [List.filter_cons, List.filterMap_cons, Entry.reply?, ih]

namespace Dealt

variable {actions : List SyncAction} {members : List (SyncAction × BatchOp)}
  {replies : List (Except ApiError BatchOperationResult)} {events : List (Σ op : Op, Reply op)}
  {prepared : UploadOutcome} {entries : List Entry}

/-- The operations of the request are those of the entries. -/
theorem ops (hdealt : Dealt held prior carrier actions members replies events prepared entries)
    (hlength : replies.length = members.length) :
    entries.filterMap Entry.op? = members.map Prod.snd := by
  rw [filterMap_op?, hdealt.sent]
  clear hdealt
  induction members generalizing replies with
  | nil => simp
  | cons member rest ih =>
      cases replies with
      | nil => simp at hlength
      | cons reply later => simpa using ih (by simpa using hlength)

/-- Each operation has the reply at its place. -/
theorem answers (hdealt : Dealt held prior carrier actions members replies events prepared entries)
    (hlength : replies.length = members.length) : entries.filterMap Entry.reply? = replies := by
  rw [filterMap_reply?, hdealt.sent]
  clear hdealt
  induction members generalizing replies with
  | nil =>
      rw [List.length_eq_zero_iff.mp hlength]
      rfl
  | cons member rest ih =>
      cases replies with
      | nil => simp at hlength
      | cons reply later => simpa [Entry.reply?] using ih (by simpa using hlength)

end Dealt

/-- A batch stops the rest only over a fatal failure. -/
theorem Carrier.runBatch_books (hcounted : carrier.Counted) (hbooks : outcome.Books held prior)
    {actions : List SyncAction} {events : List (Σ op : Op, Reply op)} {next : UploadOutcome}
    {stop : Bool} (hrun : Transcript (carrier.runBatch actions outcome) events (next, stop)) :
    ∃ entries, entries.map Entry.action = actions ∧ BatchRun carrier entries events ∧
      next.Books held (prior ++ entries) ∧
      (stop = true → ∃ failure ∈ next.failures, failure.fatal = true) := by
  rw [Carrier.runBatch, transcript_bind] at hrun
  obtain ⟨preparing, ⟨members, prepared⟩, sending, rfl, hpreparing, hrun⟩ := hrun
  simp only at hrun
  split at hrun
  -- nothing could be prepared: no request is sent
  next hempty =>
    obtain ⟨rfl, hend⟩ := transcript_pure.mp hrun
    obtain ⟨rfl, rfl⟩ := Prod.mk.inj hend
    obtain rfl := List.isEmpty_iff.mp hempty
    have hnone : ([] : List (Except ApiError BatchOperationResult)).length =
        ([] : List (SyncAction × BatchOp)).length := rfl
    obtain ⟨entries, hdealt⟩ := exists_dealt hbooks hpreparing hnone
    refine ⟨entries, hdealt.actions, ?_, ?_, by simp⟩
    · rw [List.append_nil]
      exact .idle hdealt.prepares (hdealt.ops rfl)
    · apply UploadOutcome.Books.merge
      rw [hdealt.sent]
      simpa using hdealt.books
  next hsome =>
    rw [transcript_bind] at hrun
    obtain ⟨sending, answer, last, rfl, hbatch, hrun⟩ := hrun
    cases answer with
    | error error =>
        obtain ⟨rfl, hend⟩ := transcript_pure.mp hrun
        obtain ⟨rfl, rfl⟩ := Prod.mk.inj hend
        have hlength : (repliesTo (.error error) members.length).length = members.length := by
          simp [repliesTo]
        obtain ⟨entries, hdealt⟩ := exists_dealt hbooks hpreparing hlength
        have hops := hdealt.ops hlength
        -- the batch as a whole was refused: every member fails with its error
        have hall := hdealt.books.failAll members error
        have hsent : (entries.filter fun entry => entry.op?.isSome) =
            members.map fun member => .sent member.1 member.2 (.error error) := by
          have hsame : repliesTo (.error error) members.length = members.map fun _ =>
              .error error := by
            simp [repliesTo]
          rw [hdealt.sent, hsame, List.zipWith_map_right, List.zipWith_self]
        rw [← hsent] at hall
        have hmerged := hall.merge
        refine ⟨entries, hdealt.actions, ?_, hmerged, ?_⟩
        · rw [List.append_nil]
          refine .sent hdealt.prepares (by rwa [hops]) ?_
          rw [hdealt.answers hlength, hops, List.length_map]
        · intro hfatal
          obtain ⟨member, hmember⟩ := List.exists_mem_of_ne_nil members
            fun hnil => hsome (by rw [hnil]; rfl)
          refine ⟨⟨member.1.path, member.1.kind, error.text, isFatalApiError error⟩, ?_, hfatal⟩
          rw [hmerged.failures.mem_iff, List.mem_filterMap]
          refine ⟨.sent member.1 member.2 (.error error), ?_, rfl⟩
          have hentry : .sent member.1 member.2 (.error error) ∈
              entries.filter fun entry => entry.op?.isSome := by
            rw [hsent]
            exact List.mem_map_of_mem hmember
          exact List.mem_append_right _ (List.mem_filter.mp hentry).1
    | ok results =>
        obtain ⟨rfl, hend⟩ := transcript_pure.mp hrun
        -- one result for each member
        have hresults : results.length = members.length := by
          rw [hcounted _ _ _ hbatch, List.length_map]
        have hlength : (repliesTo (.ok results) members.length).length = members.length := by
          simpa [repliesTo] using hresults
        obtain ⟨entries, hdealt⟩ := exists_dealt hbooks hpreparing hlength
        have hops := hdealt.ops hlength
        have hall := hdealt.books.accountAll hresults
        have hsent : (entries.filter fun entry => entry.op?.isSome) =
            List.zipWith (fun member result => .sent member.1 member.2 (.ok result)) members
              results := by
          rw [hdealt.sent, repliesTo, List.zipWith_map_right]
        rw [← hsent] at hall
        have hmerged := hall.merge
        rw [← show (next, stop).1 = (accountResults _ _).1 from congrArg Prod.fst hend] at hmerged
        refine ⟨entries, hdealt.actions, ?_, hmerged, ?_⟩
        · rw [List.append_nil]
          refine .sent hdealt.prepares (by rwa [hops]) ?_
          rw [hdealt.answers hlength, hops, List.length_map]
        · intro hstop
          have hfatal := accountResults_stop ((members.map Prod.fst).zip results) prepared
            (Or.inl (by rw [← hend]; exact hstop))
          rw [← hend, List.any_eq_true] at hfatal
          exact hfatal

theorem Carrier.runBatches_books (hcounted : carrier.Counted) (hbooks : outcome.Books held prior)
    {groups : List (List SyncAction)} {events : List (Σ op : Op, Reply op)} {last : UploadOutcome}
    (hrun : Transcript (carrier.runBatches groups outcome) events last) :
    ∃ runs unsent, groups.flatten = runs.flatten.map Entry.action ++ unsent ∧
      BatchRuns carrier runs events ∧ last.Books held (prior ++ runs.flatten) ∧
      (unsent ≠ [] → ∃ failure ∈ last.failures, failure.fatal = true) := by
  induction groups generalizing prior outcome events with
  | nil =>
      obtain ⟨rfl, rfl⟩ := transcript_pure.mp hrun
      exact ⟨[], [], rfl, .nil, by simpa using hbooks, by simp⟩
  | cons actions rest ih =>
      rw [Carrier.runBatches, transcript_bind] at hrun
      obtain ⟨first, ⟨next, stop⟩, later, rfl, hfirst, hrun⟩ := hrun
      obtain ⟨entries, hactions, hbatch, hnext, hstop⟩ :=
        Carrier.runBatch_books hcounted hbooks hfirst
      cases stop with
      | true =>
          obtain ⟨rfl, rfl⟩ := transcript_pure.mp hrun
          refine ⟨[entries], rest.flatten, ?_, .cons hbatch .nil, by simpa using hnext, ?_⟩
          · simp [hactions]
          · exact fun _ => hstop rfl
      | false =>
          obtain ⟨runs, unsent, hrest, hruns, hlast, hunsent⟩ := ih hnext hrun
          refine ⟨entries :: runs, unsent, ?_, .cons hbatch hruns, ?_, hunsent⟩
          · simp [hactions, hrest]
          · simpa using hlast

/-- The books of a whole upload phase. -/
theorem Carrier.runUploads_books (hcounted : carrier.Counted) {uploads : List SyncAction}
    {events : List (Σ op : Op, Reply op)} {last : UploadOutcome}
    (hrun : Transcript (carrier.runUploads uploads held) events last) :
    ∃ runs unsent, uploads = runs.flatten.map Entry.action ++ unsent ∧
      BatchRuns carrier runs events ∧ last.Books held runs.flatten ∧
      (unsent ≠ [] → ∃ failure ∈ last.failures, failure.fatal = true) := by
  have hflatten : (batches uploads).flatten = uploads := by
    rw [batches, ← List.flatMap_def]
    exact chunkUploads_flatMap uploads _
  have hbooks := Carrier.runBatches_books hcounted (UploadOutcome.Books.start held) hrun
  rwa [hflatten] at hbooks

end BatchRuns

/-- Whatever the folder and the server answer, every upload either belongs to a
batch that was run, and then it is counted as succeeded, listed as a failure or
listed as a late conflict, by the answer to its own operation; or it was never
sent, after a fatal failure. What is held back beyond `held` is what is listed. -/
theorem uploads_accounted_once {uploads : List SyncAction} {held : List String}
    {events : List (Σ op, Wire.Reply op)} {outcome : UploadOutcome}
    (hrun : Transcript (wire.runUploads uploads held) events outcome) :
    ∃ runs unsent, uploads = runs.flatten.map Entry.action ++ unsent ∧
      BatchRuns wire runs events ∧
      outcome.Books held runs.flatten ∧
      outcome.succeeded + outcome.failures.length + outcome.lateConflicts.length + unsent.length =
        uploads.length ∧
      (unsent ≠ [] → ∃ failure ∈ outcome.failures, failure.fatal = true) := by
  obtain ⟨runs, unsent, huploads, hruns, hbooks, hunsent⟩ :=
    Carrier.runUploads_books wire_counted hrun
  refine ⟨runs, unsent, huploads, hruns, hbooks, ?_, hunsent⟩
  rw [hbooks.length, huploads, List.length_append, List.length_map]

/-! Three uploads of one batch: the first cannot be read, the answers to the
other two are a conflict and a success. -/

def sampleUpload (path : String) : SyncAction where
  path := path
  kind := .upload
  localEntry := some { hash := path, size := 1 }
  remoteEntry := none

def sampleUploads : List SyncAction := [sampleUpload "a", sampleUpload "b", sampleUpload "c"]

def samplePut (path : String) : BatchOp := .put path none path [1]

def sampleEvents : List (Σ op, Wire.Reply op) :=
  [⟨.readAndEncrypt "a", .error notFound⟩, ⟨.readAndEncrypt "b", .ok [1]⟩,
    ⟨.readAndEncrypt "c", .ok [1]⟩,
    ⟨.post [samplePut "b", samplePut "c"],
      .response 200 (.ok [⟨"", 409, none⟩, ⟨"", 200, none⟩]) ""⟩]

def sampleOutcome : UploadOutcome where
  succeeded := 1
  failures := [⟨"a", .upload, notFound.text, false⟩]
  lateConflicts := [⟨"b", { hash := "b", size := 1 }, { deleted := true }⟩]
  holdBack := ["a", "b"]

theorem sample_run : Transcript (wire.runUploads sampleUploads []) sampleEvents sampleOutcome :=
  .act (.act (.act (.act (.pure _))))

theorem unreadable_member_shifts_no_answer :
    ∃ runs unsent, sampleUploads = runs.flatten.map Entry.action ++ unsent ∧
      BatchRuns wire runs sampleEvents ∧
      sampleOutcome.Books [] runs.flatten ∧
      sampleOutcome.succeeded + sampleOutcome.failures.length +
        sampleOutcome.lateConflicts.length + unsent.length = sampleUploads.length ∧
      (unsent ≠ [] → ∃ failure ∈ sampleOutcome.failures, failure.fatal = true) :=
  uploads_accounted_once sample_run

end ObSink.Engine
