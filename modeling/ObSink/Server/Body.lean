import ObSink.Server.Ledger
import ObSink.Server.Read

/-! # The content behind a row

What opening the live blob of a path yields, and how writes change it.
-/

namespace ObSink.Server

/-- The content of a path, if it has a live blob that opens. -/
def State.body (config : Config) (state : State) (path : String) : Option Bytes :=
  (state.blobs.live (config.pathName path)).bind fun sealed =>
    (openBlob config.aead config.keys state.vault.id path sealed).toOption

/-- A member who asks for a path that has a content gets it. -/
theorem getFile_of_body {config : Config} {state : State} {userId path : String} {body : Bytes}
    (hmember : requireMember none state.vault userId = .ok ()) (hvalid : validPath path = true)
    (hbody : state.body config path = some body) :
    getFile config state userId path = .ok body := by
  obtain ⟨sealed, hlive, hopen⟩ := Option.bind_eq_some_iff.mp hbody
  simp only [getFile, hmember, hvalid, hlive]
  cases hresult : openBlob config.aead config.keys state.vault.id path sealed with
  | error error => simp [hresult, Except.toOption] at hopen
  | ok plaintext =>
      simp only [hresult, Except.toOption, Option.some.injEq] at hopen
      simp [hopen]

/-- What a member is given is the content of the path. -/
theorem body_of_getFile {config : Config} {state : State} {userId path : String} {body : Bytes}
    (hget : getFile config state userId path = .ok body) : state.body config path = some body := by
  unfold getFile at hget
  split at hget
  next => cases hget
  next =>
    split at hget
    next => cases hget
    next =>
      split at hget
      next => cases hget
      next sealed hlive =>
        split at hget
        next plaintext hopen =>
          obtain rfl := Except.ok.inj hget
          simp [State.body, hlive, hopen, Except.toOption]
        next => cases hget

/-- The content a request leaves at its path. -/
def Request.content : Request → Option Bytes
  | .put _ body => some body
  | .delete _ _ => none

theorem BlobStore.replaceLive_live (store : BlobStore) (name : String) (sealed : Bytes)
    (archive : Bool) (now : Nat) :
    (store.replaceLive none name sealed archive now).2.live name = some sealed := by
  unfold replaceLive
  have hput : ∀ moved : BlobStore,
      moved.putLive none name sealed = (.ok (), moved.setLive name (some sealed)) :=
    fun moved => moved.putLive_of_no_fault none name sealed (by simp)
  cases archive with
  | false => simp [hput]
  | true =>
      cases hlive : store.live name with
      | none => simp [hput, store.moveLiveReturning_of_empty none _ _ now hlive]
      | some blob =>
          simp [hput, store.moveLiveReturning_of_no_fault none _ _ now blob hlive (by simp)]

theorem BlobStore.trashLive_live (store : BlobStore) (name : String) (now : Nat) :
    (store.trashLive none name now).2.live name = none := by
  unfold trashLive
  cases hlive : store.live name with
  | none => simp [store.moveLiveReturning_of_empty none _ _ now hlive, hlive]
  | some blob => simp [store.moveLiveReturning_of_no_fault none _ _ now blob hlive (by simp)]

/-- With no fault the blob change of a write leaves its content. -/
theorem moveBlob_body (config : Config) (haead : config.aead.Correct) (call : Call)
    (state : State) (hfault : call.fault = none) (entry : FileEntry) :
    State.body config
      { vault := state.vault.upsertEntry call.path entry call.now
        blobs := (call.moveBlob config state.vault.files[call.path]? state).2 } call.path =
      call.request.content := by
  obtain ⟨fault, now, nonce, userId, request⟩ := call
  obtain rfl : fault = none := hfault
  cases request with
  | put params body =>
      have hopen := openBlob_sealBlob haead config.keys nonce state.vault.id params.path body
      simp only [State.body, Call.moveBlob, Call.path, Request.path, BlobStore.replaceLive_live,
        Request.content, Vault.upsertEntry, Option.bind_some, hopen, Except.toOption]
  | delete path parentHash =>
      simp only [State.body, Call.moveBlob, Call.path, Request.path, BlobStore.trashLive_live,
        Request.content, Option.bind_none]

/-- A fault-free write changes nothing, or upserts the row of its path and the
content behind it and leaves every other path alone. -/
theorem serve_cases (config : Config) (haead : config.aead.Correct)
    (hname : Function.Injective config.pathName) (call : Call) (state : State)
    (hfault : call.fault = none) :
    ((call.serve config state).2 = state ∧
      ∀ entry, (call.serve config state).1 ≠ .ok (.written entry)) ∨
    ∃ entry, (call.serve config state).1 = .ok (.written entry) ∧
      (call.serve config state).2.vault = state.vault.upsertEntry call.path entry call.now ∧
      (call.serve config state).2.body config call.path = call.request.content ∧
      ∀ path, path ≠ call.path →
        (call.serve config state).2.body config path = state.body config path := by
  have hwritten : ∀ entry, call.serve config state = (.ok (.written entry),
      { vault := state.vault.upsertEntry call.path entry call.now
        blobs := (call.moveBlob config state.vault.files[call.path]? state).2 }) →
      (call.serve config state).1 = .ok (.written entry) ∧
      (call.serve config state).2.vault = state.vault.upsertEntry call.path entry call.now ∧
      (call.serve config state).2.body config call.path = call.request.content ∧
      ∀ path, path ≠ call.path →
        (call.serve config state).2.body config path = state.body config path := by
    intro entry hserve
    rw [hserve]
    refine ⟨rfl, rfl, moveBlob_body config haead call state hfault entry, ?_⟩
    intro path hne
    have hsame := call.moveBlob_sameAt config state.vault.files[call.path]? state
      fun heq : config.pathName path = config.pathName call.path => hne (hname heq)
    simp only [State.body, hsame.live, Vault.upsertEntry]
  cases hrequest : call.request with
  | put params body =>
      have hpath : call.path = params.path := by simp [Call.path, hrequest, Request.path]
      rcases serve_put config call state hfault hrequest with
        ⟨error, _, hserve⟩ | ⟨contentHash, _, hgate⟩
      · exact Or.inl (by simp [hserve])
      · split at hgate
        next => exact Or.inl (by simp [hgate])
        next => exact Or.inl (by simp [hgate])
        next =>
          rw [← hpath] at hgate
          have hcase := hwritten _ hgate
          rw [hrequest] at hcase
          exact Or.inr ⟨_, hcase⟩
  | delete path parentHash =>
      have hpath : call.path = path := by simp [Call.path, hrequest, Request.path]
      rcases serve_delete config call state hfault hrequest with
        ⟨error, _, hserve⟩ | ⟨_, hgate⟩
      · exact Or.inl (by simp [hserve])
      · split at hgate
        next => exact Or.inl (by simp [hgate])
        next =>
          rw [← hpath] at hgate
          have hcase := hwritten _ hgate
          rw [hrequest] at hcase
          exact Or.inr ⟨_, hcase⟩

theorem requireMember_iff (vault : Vault) (userId : String) :
    requireMember none vault userId = .ok () ↔
      validVaultId vault.id = true ∧ userId ∈ vault.members := by
  simp only [requireMember, attempt_none, internally_ok, bind, Except.bind, throw, throwThe,
    MonadExceptOf.throw, pure, Except.pure]
  by_cases hid : validVaultId vault.id = false
  · simp [hid]
  · by_cases hmember : userId ∈ vault.members
    · simp [hid, hmember]
    · simp [hid, hmember]

/-- The row a request writes, and the gate it passed. -/
def Request.Writes (request : Request) (current : Option FileEntry) (now : Nat)
    (entry : FileEntry) : Prop :=
  match request with
  | .put params body =>
      (∃ contentHash, params.hash = some contentHash ∧
        entry = putEntry params contentHash current now body.length) ∧
      ∀ row, current = some row → row.hash = params.parentHash.getD ""
  | .delete _ parentHash =>
      entry = tombstone current now ∧
      ∀ row, current = some row → row.hash = parentHash.getD ""

theorem writes_of_serve {config : Config} {call : Call} {state : State} {entry : FileEntry}
    (hserve : (call.serve config state).1 = .ok (.written entry)) :
    call.request.Writes state.vault.files[call.path]? call.now entry := by
  rcases locked_cases config call state with
    ⟨answer, hlocked, hrefused⟩ | ⟨current, admitted, hlocked⟩
  · rw [serve_of_refused hlocked] at hserve
    exact absurd hserve (hrefused entry)
  · have hentry : admitted = entry := by
      rw [serve_of_admitted hlocked] at hserve
      split at hserve
      next => cases hserve
      next =>
        split at hserve
        next => cases hserve
        next => exact Outcome.written.inj (Except.ok.inj hserve)
    subst hentry
    obtain ⟨fault, now, nonce, userId, request⟩ := call
    cases request with
    | put params body =>
        simp only [Call.step] at hlocked
        split at hlocked
        next => simp at hlocked
        next => simp at hlocked
        next contentHash row hadmits =>
          simp only [Prod.mk.injEq, Sum.inl.injEq, Stage.admitted.injEq, and_true] at hlocked
          obtain ⟨rfl, rfl⟩ := hlocked
          obtain ⟨hcheck, rfl, hparent⟩ := admitPut_write hadmits
          exact ⟨⟨contentHash, checkPut_ok_hash hcheck, rfl⟩, hparent⟩
    | delete path parentHash =>
        simp only [Call.step] at hlocked
        split at hlocked
        next => simp at hlocked
        next row hadmits =>
          simp only [Prod.mk.injEq, Sum.inl.injEq, Stage.admitted.injEq, and_true] at hlocked
          obtain ⟨rfl, rfl⟩ := hlocked
          obtain ⟨_, rfl, hparent⟩ := admitDelete_ok hadmits
          exact ⟨rfl, hparent⟩

/-- A put of a member that the gate lets through meets a limit, or is written. -/
theorem serve_put_open (config : Config) {call : Call} {state : State} (hfault : call.fault = none)
    {params : PutParams} {body : Bytes} (hrequest : call.request = .put params body)
    (hmember : requireMember none state.vault call.userId = .ok ())
    (hvalid : validPath params.path = true) {contentHash : String}
    (hhash : params.hash = some contentHash)
    (hparent : ∀ row, state.vault.files[params.path]? = some row →
      row.hash = params.parentHash.getD "") :
    (state.vault.maxFileSize < body.length ∧
      call.serve config state = (.error (.status 413 "file too large"), state)) ∨
    call.serve config state = (.error (.status 507 quotaMessage), state) ∨
    (body.length ≤ state.vault.maxFileSize ∧
      ∃ entry, (call.serve config state).1 = .ok (.written entry)) := by
  obtain ⟨hid, hin⟩ := (requireMember_iff _ _).mp hmember
  have hcheck := checkPut_none config state.vault call.userId params body.length
  simp only [hvalid, hhash, hid, hin, Bool.true_eq_false, not_true_eq_false, ↓reduceIte] at hcheck
  have hgate : gatePut state.vault.files[params.path]? params contentHash =
      .ok (.write contentHash state.vault.files[params.path]?) := by
    cases hrow : state.vault.files[params.path]? with
    | none => rfl
    | some row => simp [gatePut, hparent row hrow]
  rcases serve_put config call state hfault hrequest with
    ⟨error, herror, hrefused⟩ | ⟨hash, hok, hserve⟩
  · rw [hcheck] at herror
    split at herror
    next hsize =>
      obtain rfl := Except.error.inj herror
      exact Or.inl ⟨hsize, hrefused⟩
    next =>
      split at herror
      next =>
        obtain rfl := Except.error.inj herror
        exact Or.inr (Or.inl hrefused)
      next => cases herror
  · rw [hcheck] at hok
    split at hok
    next => cases hok
    next hsize =>
      split at hok
      next => cases hok
      next =>
        obtain rfl := Except.ok.inj hok
        rw [hgate] at hserve
        exact Or.inr (Or.inr ⟨by omega, _, congrArg Prod.fst hserve⟩)

/-- A delete of a member that the gate lets through is written. -/
theorem serve_delete_open (config : Config) {call : Call} {state : State}
    (hfault : call.fault = none) {path : String} {parentHash : Option String}
    (hrequest : call.request = .delete path parentHash)
    (hmember : requireMember none state.vault call.userId = .ok ())
    (hvalid : validPath path = true)
    (hparent : ∀ row, state.vault.files[path]? = some row → row.hash = parentHash.getD "") :
    ∃ entry, (call.serve config state).1 = .ok (.written entry) := by
  obtain ⟨hid, hin⟩ := (requireMember_iff _ _).mp hmember
  have hcheck := checkDelete_none state.vault call.userId path
  simp only [hvalid, hid, hin, Bool.true_eq_false, not_true_eq_false, ↓reduceIte] at hcheck
  have hgate : gateDelete state.vault.files[path]? path parentHash =
      .ok state.vault.files[path]? := by
    cases hrow : state.vault.files[path]? with
    | none => rfl
    | some row => simp [gateDelete, hparent row hrow]
  rcases serve_delete config call state hfault hrequest with ⟨error, herror, _⟩ | ⟨_, hserve⟩
  · rw [hcheck] at herror
    cases herror
  · rw [hgate] at hserve
    exact ⟨_, congrArg Prod.fst hserve⟩

/-- A write without a fault is refused by a check or by the gate. -/
theorem serve_refusal {config : Config} {call : Call} {state : State} (hfault : call.fault = none)
    {error : ApiError} (hserve : (call.serve config state).1 = .error error) :
    (∀ message, error ≠ .internal message) ∧ error.statusCode ∈ [400, 404, 409, 413, 507] := by
  cases hrequest : call.request with
  | put params body =>
      rcases serve_put config call state hfault hrequest with
        ⟨found, hcheck, hrefused⟩ | ⟨contentHash, _, hgate⟩
      · simp only [hrefused, Except.error.injEq] at hserve
        subst hserve
        rw [checkPut_none] at hcheck
        repeat' split at hcheck
        all_goals first
          | (obtain rfl := Except.error.inj hcheck; simp [ApiError.statusCode])
          | cases hcheck
      · -- past the checks only the gate refuses
        unfold gatePut at hgate
        cases hrow : state.vault.files[params.path]? with
        | none =>
            simp only [hrow] at hgate
            simp [hgate] at hserve
        | some row =>
            simp only [hrow] at hgate
            split at hgate
            next gateError hgateError =>
              simp only [hgate, Except.error.injEq] at hserve
              subst hserve
              split at hgateError
              · split at hgateError
                · cases hgateError
                · obtain rfl := Except.error.inj hgateError
                  simp [ApiError.statusCode]
              · cases hgateError
            next => simp [hgate] at hserve
            next => simp [hgate] at hserve
  | delete path parentHash =>
      rcases serve_delete config call state hfault hrequest with
        ⟨found, hcheck, hrefused⟩ | ⟨_, hgate⟩
      · simp only [hrefused, Except.error.injEq] at hserve
        subst hserve
        rw [checkDelete_none] at hcheck
        repeat' split at hcheck
        all_goals first
          | (obtain rfl := Except.error.inj hcheck; simp [ApiError.statusCode])
          | cases hcheck
      · -- past the checks only the gate refuses
        unfold gateDelete at hgate
        cases hrow : state.vault.files[path]? with
        | none =>
            simp only [hrow] at hgate
            simp [hgate] at hserve
        | some row =>
            simp only [hrow] at hgate
            split at hgate
            next gateError hgateError =>
              simp only [hgate, Except.error.injEq] at hserve
              subst hserve
              split at hgateError
              · obtain rfl := Except.error.inj hgateError
                simp [ApiError.statusCode]
              · cases hgateError
            next => simp [hgate] at hserve

end ObSink.Server
