import ObSink.Server.Body
import ObSink.Server.Race

/-! # Requests that are sent again

A client that gets no answer sends its request again, and the earlier attempts
may have been applied. The gate compares the stored hash with the parent hash,
so a later attempt is harmless as long as the row does not have the parent hash
again.
-/

namespace ObSink.Server

/-- The same operation: only the encrypted path is made anew. -/
def Request.Resends : Request → Request → Prop
  | .put params body, .put params' body' =>
      params' = { params with encPath := params'.encPath } ∧ body' = body
  | .delete path parentHash, .delete path' parentHash' => path' = path ∧ parentHash' = parentHash
  | _, _ => False

theorem Request.Resends.path_eq {request again : Request} (hresends : request.Resends again) :
    again.path = request.path := by
  cases request with
  | put params body =>
      cases again with
      | put params' body' => exact (congrArg PutParams.path hresends.1).trans rfl
      | delete path parentHash => exact hresends.elim
  | delete path parentHash =>
      cases again with
      | put params' body' => exact hresends.elim
      | delete path' parentHash' => exact hresends.1

theorem Request.Resends.parentHash_eq {request again : Request} (hresends : request.Resends again) :
    again.parentHash = request.parentHash := by
  cases request with
  | put params body =>
      cases again with
      | put params' body' => exact (congrArg PutParams.parentHash hresends.1).trans rfl
      | delete path parentHash => exact hresends.elim
  | delete path parentHash =>
      cases again with
      | put params' body' => exact hresends.elim
      | delete path' parentHash' => exact hresends.2

/-- The checks before the gate, with the fault the request meets. -/
def Call.PassesChecks (config : Config) (call : Call) (state : State) : Prop :=
  match call.request with
  | .put params body =>
      ∃ contentHash, checkPut config call.fault state.vault call.userId params body.length =
        .ok contentHash
  | .delete path _ => checkDelete call.fault state.vault call.userId path = .ok ()

/-- Success without a write, or a conflict. -/
def Harmless (answer : Except ApiError Outcome) : Prop :=
  answer = .ok .alreadyThere ∨ ∃ path current, answer = .error (.conflict path current)

theorem internally_ne_conflict {α : Type} (result : Except String α) (path : String)
    (current : Option FileEntry) : internally result ≠ .error (.conflict path current) := by
  intro hconflict
  cases result <;> cases hconflict

theorem lockVault_ne_conflict (fault : Option Fault) (vault : Vault) (userId path : String)
    (current : Option FileEntry) :
    lockVault fault vault userId ≠ .error (.conflict path current) := by
  intro hconflict
  simp only [lockVault, requireMember, bind, Except.bind, throw, throwThe,
    MonadExceptOf.throw, pure, Except.pure] at hconflict
  split at hconflict
  next error hmember =>
    obtain rfl := Except.error.inj hconflict
    split at hmember
    next => cases hmember
    next =>
      split at hmember
      next error hattempt =>
        obtain rfl := Except.error.inj hmember
        exact internally_ne_conflict _ _ _ hattempt
      next => split at hmember <;> cases hmember
  next => exact internally_ne_conflict _ _ _ hconflict

/-- The checks before the gate never answer by a conflict. -/
theorem checkPut_ne_conflict (config : Config) (fault : Option Fault) (vault : Vault)
    (userId : String) (params : PutParams) (size : Nat) (path : String)
    (current : Option FileEntry) :
    checkPut config fault vault userId params size ≠ .error (.conflict path current) := by
  intro hconflict
  simp only [checkPut, bind, Except.bind, throw, throwThe, MonadExceptOf.throw, pure,
    Except.pure] at hconflict
  repeat' split at hconflict
  all_goals first
    | (cases hconflict; done)
    | (next hattempt =>
        obtain rfl := Except.error.inj hconflict
        first
          | exact internally_ne_conflict _ _ _ hattempt
          | exact lockVault_ne_conflict _ _ _ _ _ hattempt)

theorem checkDelete_ne_conflict (fault : Option Fault) (vault : Vault) (userId path other : String)
    (current : Option FileEntry) :
    checkDelete fault vault userId path ≠ .error (.conflict other current) := by
  intro hconflict
  simp only [checkDelete, bind, Except.bind, throw, throwThe, MonadExceptOf.throw] at hconflict
  repeat' split at hconflict
  all_goals first
    | (cases hconflict; done)
    | exact internally_ne_conflict _ _ _ hconflict
    | (next hattempt =>
        obtain rfl := Except.error.inj hconflict
        first
          | exact internally_ne_conflict _ _ _ hattempt
          | exact lockVault_ne_conflict _ _ _ _ _ hattempt)

@[simp] theorem not_harmless_written (entry : FileEntry) : ¬ Harmless (.ok (.written entry)) := by
  rintro (hsame | ⟨_, _, hconflict⟩)
  · cases hsame
  · cases hconflict

@[simp] theorem not_harmless_internal (message : String) :
    ¬ Harmless (.error (.internal message)) := by
  rintro (hsame | ⟨_, _, hconflict⟩)
  · cases hsame
  · cases hconflict

/-- A write over a row is harmless exactly if it gets to the gate and the row
does not have its parent hash. -/
theorem harmless_serve_iff (config : Config) (call : Call) (state : State) {row : FileEntry}
    (hrow : state.vault.files[call.path]? = some row) :
    Harmless (call.serve config state).1 ↔
      call.PassesChecks config state ∧ row.hash ≠ call.request.parentHash.getD "" := by
  obtain ⟨fault, now, nonce, userId, request⟩ := call
  unfold Call.PassesChecks
  cases request with
  | put params body =>
      change state.vault.files[params.path]? = some row at hrow
      simp only [Call.serve, applyRequest, applyPut, admitPut, Request.parentHash]
      cases hcheck : checkPut config fault state.vault userId params body.length with
      | error error =>
          simp only [Harmless, Except.error.injEq, reduceCtorEq, false_or, exists_false, false_and,
            iff_false]
          rintro ⟨path, current, rfl⟩
          exact checkPut_ne_conflict _ _ _ _ _ _ _ _ hcheck
      | ok contentHash =>
          simp only [hrow, Except.ok.injEq, exists_eq', true_and]
          by_cases hparent : row.hash = params.parentHash.getD ""
          · have hopen : gatePut (some row) params contentHash =
                .ok (.write contentHash (some row)) := by
              simp [gatePut, hparent]
            simp only [hopen, hparent, ne_eq, not_true, iff_false]
            split
            next => simp
            next => split <;> simp
          · simp only [ne_eq, hparent, not_false_iff, iff_true]
            by_cases hthere : (!row.deleted && row.hash = contentHash) = true
            · simp [gatePut, hparent, hthere, Harmless]
            · simp [gatePut, hparent, hthere, Harmless]
  | delete path parentHash =>
      change state.vault.files[path]? = some row at hrow
      simp only [Call.serve, applyRequest, applyDelete, admitDelete, Request.parentHash]
      cases hcheck : checkDelete fault state.vault userId path with
      | error error =>
          simp only [Harmless, Except.error.injEq, reduceCtorEq, false_or, false_and, iff_false]
          rintro ⟨other, current, rfl⟩
          exact checkDelete_ne_conflict _ _ _ _ _ _ hcheck
      | ok value =>
          simp only [hrow, true_and]
          by_cases hparent : row.hash = parentHash.getD ""
          · have hopen : gateDelete (some row) path parentHash = .ok (some row) := by
              simp [gateDelete, hparent]
            simp only [hopen, hparent, ne_eq, not_true, iff_false]
            split
            next => simp
            next => split <;> simp
          · simp [gateDelete, hparent, Harmless]

/-- A harmless write changes no row. -/
theorem serve_vault_of_harmless {config : Config} {call : Call} {state : State}
    (hharmless : Harmless (call.serve config state).1) :
    (call.serve config state).2.vault = state.vault := by
  rcases serve_vault config call state with ⟨entry, hwritten, _⟩ | ⟨_, hvault⟩
  · rw [hwritten] at hharmless
    exact absurd hharmless (not_harmless_written entry)
  · exact hvault

/-! ## At most once -/

/-- The write changed its row. -/
def TookEffect (answer : Except ApiError Outcome) : Prop := ∃ entry, answer = .ok (.written entry)

/-- No two attempts of an operation took effect, and one that came after it had
taken effect was answered by success or a conflict and changed no row. -/
structure AppliedOnce (config : Config) (start : State) (mine : Call → Prop)
    (log : List (Call × Except ApiError Outcome)) : Prop where
  once : ∀ before call answer after, log = before ++ (call, answer) :: after → mine call →
    TookEffect answer → ¬ ∃ done ∈ before, mine done.1 ∧ TookEffect done.2
  late : ∀ before call answer after, log = before ++ (call, answer) :: after → mine call →
    (∃ done ∈ before, mine done.1 ∧ TookEffect done.2) →
    Harmless answer ∧ (settled config start ((before ++ [(call, answer)]).map Prod.fst)).vault =
      (settled config start (before.map Prod.fst)).vault

/-- A row that was written once stays a row. -/
theorem row_of_effect {config : Config} {start : State}
    {log : List (Call × Except ApiError Outcome)} (hanswered : Answered config start log)
    {path : String} (heffect : ∃ done ∈ log, done.1.path = path ∧ TookEffect done.2) :
    ∃ row, (settled config start (log.map Prod.fst)).vault.files[path]? = some row := by
  induction log using List.reverseRecOn with
  | nil =>
      obtain ⟨done, hmem, _⟩ := heffect
      cases hmem
  | append_singleton init last ih =>
      obtain ⟨call, answer⟩ := last
      have hinit : Answered config start init := fun before other reply after hlog =>
        hanswered before other reply (after ++ [(call, answer)]) (by simp [hlog])
      have hlast := hanswered init call answer [] rfl
      rw [List.map_append, settled_append]
      simp only [List.map_cons, List.map_nil, settled_cons, settled_nil]
      rcases serve_vault config call (settled config start (init.map Prod.fst)) with
        ⟨entry, _, hvault⟩ | ⟨hrefused, hvault⟩
      · rw [hvault]
        by_cases hpath : call.path = path
        · exact ⟨entry, by simp [Vault.upsertEntry, hpath]⟩
        · have hearlier : ∃ done ∈ init, done.1.path = path ∧ TookEffect done.2 := by
            obtain ⟨done, hmem, hown, htook⟩ := heffect
            rcases List.mem_append.mp hmem with hold | hnew
            · exact ⟨done, hold, hown, htook⟩
            · obtain rfl := List.mem_singleton.mp hnew
              exact absurd hown hpath
          obtain ⟨row, hrow⟩ := ih hinit hearlier
          exact ⟨row, (Std.ExtTreeMap.getElem?_insert_of_ne _ entry hpath).trans hrow⟩
      · rw [hvault]
        refine ih hinit ?_
        obtain ⟨done, hmem, hown, entry, htook⟩ := heffect
        rcases List.mem_append.mp hmem with hold | hnew
        · exact ⟨done, hold, hown, entry, htook⟩
        · obtain rfl := List.mem_singleton.mp hnew
          exact absurd (hlast.symm.trans htook) (hrefused entry)

/-- In every interleaving, an operation that is sent any number of times is
applied at most once exactly if every attempt after it took effect gets to the
gate and does not find its parent hash in the row. -/
theorem resent_applied_once_iff (config : Config) {start : State} {board : Board}
    (hreach : Reachable config start board) {operation : Request} {mine : Call → Prop}
    (hmine : ∀ call, mine call → operation.Resends call.request) :
    AppliedOnce config start mine board.log ↔
      ∀ before call answer after, board.log = before ++ (call, answer) :: after → mine call →
        (∃ done ∈ before, mine done.1 ∧ TookEffect done.2) →
        call.PassesChecks config (settled config start (before.map Prod.fst)) ∧
          ∀ row,
            (settled config start (before.map Prod.fst)).vault.files[operation.path]? = some row →
            row.hash ≠ operation.parentHash.getD "" := by
  obtain ⟨hanswered, _, _⟩ := reachable_settled hreach
  -- an attempt after the first effect, over the row that effect left
  have hlate : ∀ before call answer after, board.log = before ++ (call, answer) :: after →
      mine call → (∃ done ∈ before, mine done.1 ∧ TookEffect done.2) →
      (Harmless answer ↔ call.PassesChecks config (settled config start (before.map Prod.fst)) ∧
        ∀ row,
          (settled config start (before.map Prod.fst)).vault.files[operation.path]? = some row →
          row.hash ≠ operation.parentHash.getD "") := by
    intro before call answer after hlog hcall hdone
    obtain ⟨done, hmem, hown, htook⟩ := hdone
    have hbefore : Answered config start before := fun init other reply rest hsplit =>
      hanswered init other reply (rest ++ (call, answer) :: after) (by simp [hlog, hsplit])
    obtain ⟨row, hrow⟩ := row_of_effect hbefore ⟨done, hmem, (hmine _ hown).path_eq, htook⟩
    have hpath : call.path = operation.path := (hmine call hcall).path_eq
    have hserve := harmless_serve_iff config call (settled config start (before.map Prod.fst))
      (hpath ▸ hrow)
    rw [(hmine call hcall).parentHash_eq] at hserve
    rw [hanswered before call answer after hlog, hserve]
    simp [hrow]
  constructor
  · intro happlied before call answer after hlog hcall hdone
    exact (hlate before call answer after hlog hcall hdone).mp
      (happlied.late before call answer after hlog hcall hdone).1
  · intro hcondition
    have hharmless : ∀ before call answer after, board.log = before ++ (call, answer) :: after →
        mine call → (∃ done ∈ before, mine done.1 ∧ TookEffect done.2) → Harmless answer :=
      fun before call answer after hlog hcall hdone =>
        (hlate before call answer after hlog hcall hdone).mpr
          (hcondition before call answer after hlog hcall hdone)
    refine ⟨?_, ?_⟩
    · rintro before call answer after hlog hcall ⟨entry, rfl⟩ hdone
      exact not_harmless_written entry (hharmless before call _ after hlog hcall hdone)
    · intro before call answer after hlog hcall hdone
      have hanswer := hharmless before call answer after hlog hcall hdone
      refine ⟨hanswer, ?_⟩
      rw [hanswered before call answer after hlog] at hanswer
      rw [List.map_append, settled_append]
      exact serve_vault_of_harmless hanswer

/-- The operation of a put of `note` over its first version. -/
def resentPut : Call where
  fault := none
  now := 5
  nonce := Aead.zeroNonce
  userId := "user_1"
  request := .put ⟨"note", some "h", some "h1", none⟩ [1]

/-- Sent twice, it is applied once. -/
theorem resent_put_applied_once_in_sample :
    AppliedOnce sampleConfig sampleState (fun call => call.request = resentPut.request)
      (served sampleConfig sampleState [resentPut, resentPut]) := by
  have hreach := reachable_of_calls sampleConfig sampleState [resentPut, resentPut]
  have hmine : ∀ call : Call, call.request = resentPut.request →
      resentPut.request.Resends call.request := by
    intro call hcall
    rw [hcall]
    exact ⟨rfl, rfl⟩
  refine (resent_applied_once_iff sampleConfig hreach hmine).mpr ?_
  intro before call answer after hlog _ hdone
  obtain ⟨done, hmem, _⟩ := hdone
  simp only [served] at hlog
  rcases before with _ | ⟨first, _ | ⟨second, others⟩⟩
  case nil => cases hmem
  case cons.nil =>
      obtain ⟨rfl, hrest⟩ := List.cons.inj hlog
      obtain ⟨hsecond, _⟩ := List.cons.inj hrest
      obtain ⟨rfl, _⟩ := Prod.mk.inj hsecond
      have hhash : ((settled sampleConfig sampleState [resentPut]).vault.files["note"]?.map
          FileEntry.hash) = some "h1" := by
        decide +kernel
      refine ⟨⟨"h1", by decide +kernel⟩, fun row hrow => ?_⟩
      change (settled sampleConfig sampleState [resentPut]).vault.files["note"]? = some row at hrow
      rw [hrow, Option.map_some, Option.some.injEq] at hhash
      rw [hhash]
      decide
  case cons.cons => simp at hlog

/-- A delete of `note`, sent at two times. -/
def resentDelete (now : Nat) : Call where
  fault := none
  now := now
  nonce := Aead.zeroNonce
  userId := "user_1"
  request := .delete "note" (some "h")

/-- The tombstone keeps the parent hash, so a delete that is sent again is
applied again. -/
theorem resent_delete_applied_twice_in_sample :
    ¬ ∀ (config : Config) (start : State) (board : Board), Reachable config start board →
      ∀ (operation : Request) (mine : Call → Prop),
        (∀ call, mine call → operation.Resends call.request) →
        AppliedOnce config start mine board.log := by
  intro hall
  have hreach := reachable_of_calls sampleConfig sampleState [resentDelete 5, resentDelete 6]
  have happlied := hall sampleConfig sampleState _ hreach (.delete "note" (some "h"))
    (fun call => call.request = .delete "note" (some "h"))
    (fun call hcall => by rw [hcall]; exact ⟨rfl, rfl⟩)
  have hfirst : ((resentDelete 5).serve sampleConfig sampleState).1 =
      .ok (.written { hash := "h", modified := 5, size := 2, deleted := true }) := by
    decide +kernel
  have hsecond : ((resentDelete 6).serve sampleConfig
        ((resentDelete 5).serve sampleConfig sampleState).2).1 =
      .ok (.written { hash := "h", modified := 6, size := 2, deleted := true }) := by
    decide +kernel
  exact happlied.once [_] _ _ [] rfl rfl ⟨_, hsecond⟩ ⟨_, List.mem_singleton_self _, rfl, _, hfirst⟩

end ObSink.Server
