import ObSink.Server.Serial

/-! # Two writers racing on one path

Two requests present the same parent hash of a live row. The gate lets the
first of them write; it stops the second because the row then has another hash,
which is so after a put, while a delete leaves its hash on the tombstone.
-/

namespace ObSink.Server

def Request.parentHash : Request → Option String
  | .put params _ => params.parentHash
  | .delete _ parentHash => parentHash

def Request.isPut : Request → Bool
  | .put _ _ => true
  | .delete _ _ => false

/-- One of the two puts new content over `hash`; the other puts yet other
content or deletes. -/
inductive Opposed (hash : String) : Request → Request → Prop
  | putPut {params₁ params₂ : PutParams} {body₁ body₂ : Bytes} {hash₁ hash₂ : String}
      (hhash₁ : params₁.hash = some hash₁) (hhash₂ : params₂.hash = some hash₂)
      (hne₁ : hash₁ ≠ hash) (hne₂ : hash₂ ≠ hash) (hne : hash₂ ≠ hash₁) :
      Opposed hash (.put params₁ body₁) (.put params₂ body₂)
  | putDelete {params : PutParams} {body : Bytes} {hash₁ path : String} {parent : Option String}
      (hhash₁ : params.hash = some hash₁) (hne₁ : hash₁ ≠ hash) :
      Opposed hash (.put params body) (.delete path parent)
  | deletePut {params : PutParams} {body : Bytes} {hash₁ path : String} {parent : Option String}
      (hhash₁ : params.hash = some hash₁) (hne₁ : hash₁ ≠ hash) :
      Opposed hash (.delete path parent) (.put params body)

/-- Two requests on `path` that both present `hash` as its parent. -/
structure Race (path hash : String) (first second : Call) : Prop where
  firstPath : first.path = path
  secondPath : second.path = path
  firstParent : first.request.parentHash = some hash
  secondParent : second.request.parentHash = some hash
  firstFault : first.fault = none
  secondFault : second.fault = none
  opposed : Opposed hash first.request second.request

/-- The request is well formed, its caller is a member, and a put keeps within
the size limit and the quota: it reaches the gate. -/
def Call.ReachesGate (config : Config) (call : Call) (state : State) : Prop :=
  match call.request with
  | .put params body =>
      ∃ contentHash, checkPut config none state.vault call.userId params body.length =
        .ok contentHash
  | .delete path _ => checkDelete none state.vault call.userId path = .ok ()

/-- Exactly one of two answers is a success, the other is a conflict that
carries the winner's entry, and the row is the winner's. -/
def OneWinner (path : String) (answer₁ answer₂ : Except ApiError Outcome)
    (row : Option FileEntry) : Prop :=
  (∃ entry, answer₁ = .ok (.written entry) ∧
    answer₂ = .error (.conflict path (some entry)) ∧ row = some entry) ∨
  ∃ entry, answer₂ = .ok (.written entry) ∧
    answer₁ = .error (.conflict path (some entry)) ∧ row = some entry

/-- Answers neither of which is a conflict have no single winner. -/
theorem not_oneWinner {path : String} {answer₁ answer₂ : Except ApiError Outcome}
    {row : Option FileEntry}
    (hfirst : ∀ current, answer₁ ≠ .error (.conflict path current))
    (hsecond : ∀ current, answer₂ ≠ .error (.conflict path current)) :
    ¬ OneWinner path answer₁ answer₂ row := by
  rintro (⟨entry, _, hconflict, _⟩ | ⟨entry, _, hconflict, _⟩)
  · exact hsecond _ hconflict
  · exact hfirst _ hconflict

/-- A request whose parent hash is the row's is never answered by a conflict;
it writes exactly when it reaches the gate. -/
theorem serve_of_parent (config : Config) (call : Call) (state : State) {row : FileEntry}
    (hfault : call.fault = none) (hrow : state.vault.files[call.path]? = some row)
    (hparent : call.request.parentHash = some row.hash) :
    (call.ReachesGate config state ∧ ∃ entry,
      (call.serve config state).1 = .ok (.written entry) ∧
      (call.serve config state).2.vault.files[call.path]? = some entry ∧
      entry.deleted = !call.request.isPut ∧
      (∀ params body, call.request = .put params body → params.hash = some entry.hash) ∧
      (call.request.isPut = false → entry.hash = row.hash)) ∨
    (¬ call.ReachesGate config state ∧ call.serve config state =
      ((call.serve config state).1, state) ∧
      (∃ code message, (call.serve config state).1 = .error (.status code message))) := by
  unfold Call.ReachesGate
  cases hrequest : call.request with
  | put params body =>
      have hpath : call.path = params.path := by simp [Call.path, hrequest, Request.path]
      rw [hpath] at hrow
      simp only [hrequest, Request.parentHash] at hparent
      rcases serve_put config call state hfault hrequest with
        ⟨error, hcheck, hserve⟩ | ⟨contentHash, hcheck, hgate⟩
      · obtain ⟨code, message, rfl⟩ := checkPut_error_status hcheck
        exact Or.inr ⟨by simp [hcheck], by rw [hserve], code, message, by rw [hserve]⟩
      · have hopen : gatePut state.vault.files[params.path]? params contentHash =
            .ok (.write contentHash (some row)) := by
          simp [gatePut, hrow, hparent]
        rw [hopen] at hgate
        refine Or.inl ⟨⟨contentHash, hcheck⟩, _, by rw [hgate], ?_, rfl, ?_, ?_⟩
        · rw [hgate, hpath]
          simp [Vault.upsertEntry]
        · intro other otherBody hother
          obtain ⟨rfl, rfl⟩ := Request.put.inj hother
          exact checkPut_ok_hash hcheck
        · simp [Request.isPut]
  | delete path parentHash =>
      have hpath : call.path = path := by simp [Call.path, hrequest, Request.path]
      rw [hpath] at hrow
      simp only [hrequest, Request.parentHash] at hparent
      rcases serve_delete config call state hfault hrequest with
        ⟨error, hcheck, hserve⟩ | ⟨hcheck, hgate⟩
      · obtain ⟨code, message, rfl⟩ := checkDelete_error_status hcheck
        exact Or.inr ⟨by simp [hcheck], by rw [hserve], code, message, by rw [hserve]⟩
      · have hopen : gateDelete state.vault.files[path]? path parentHash = .ok (some row) := by
          simp [gateDelete, hrow, hparent]
        rw [hopen] at hgate
        refine Or.inl ⟨hcheck, _, by rw [hgate], ?_, rfl, by simp, ?_⟩
        · rw [hgate, hpath]
          simp [Vault.upsertEntry]
        · intro _
          simp [tombstone, hrow]

/-- A request over a live row of another hash, and of other content than it
puts, is answered by a conflict with that row exactly when it reaches the gate. -/
theorem serve_of_other_parent (config : Config) (call : Call) (state : State) {row : FileEntry}
    (hfault : call.fault = none) (hrow : state.vault.files[call.path]? = some row)
    (hparent : call.request.parentHash ≠ some row.hash) (hsome : row.hash ≠ "")
    (hcontent : ∀ params body, call.request = .put params body → params.hash ≠ some row.hash) :
    call.serve config state = ((call.serve config state).1, state) ∧
    ((call.ReachesGate config state ∧
      (call.serve config state).1 = .error (.conflict call.path (some row))) ∨
    (¬ call.ReachesGate config state ∧
      ∃ code message, (call.serve config state).1 = .error (.status code message))) := by
  unfold Call.ReachesGate
  cases hrequest : call.request with
  | put params body =>
      have hpath : call.path = params.path := by simp [Call.path, hrequest, Request.path]
      rw [hpath] at hrow ⊢
      simp only [hrequest, Request.parentHash] at hparent
      rcases serve_put config call state hfault hrequest with
        ⟨error, hcheck, hserve⟩ | ⟨contentHash, hcheck, hgate⟩
      · obtain ⟨code, message, rfl⟩ := checkPut_error_status hcheck
        exact ⟨by rw [hserve], Or.inr ⟨by simp [hcheck], code, message, by rw [hserve]⟩⟩
      · have hgetD : row.hash ≠ params.parentHash.getD "" := by
          cases hcase : params.parentHash with
          | none => simpa using hsome
          | some parent =>
              rw [hcase] at hparent
              simpa [eq_comm] using hparent
        have hother : row.hash ≠ contentHash := by
          intro heq
          exact hcontent params body hrequest (heq ▸ checkPut_ok_hash hcheck)
        have hshut : gatePut state.vault.files[params.path]? params contentHash =
            .error (.conflict params.path (some row)) := by
          simp [gatePut, hrow, hgetD, hother]
        rw [hshut] at hgate
        exact ⟨by rw [hgate], Or.inl ⟨⟨contentHash, hcheck⟩, by rw [hgate]⟩⟩
  | delete path parentHash =>
      have hpath : call.path = path := by simp [Call.path, hrequest, Request.path]
      rw [hpath] at hrow ⊢
      simp only [hrequest, Request.parentHash] at hparent
      rcases serve_delete config call state hfault hrequest with
        ⟨error, hcheck, hserve⟩ | ⟨hcheck, hgate⟩
      · obtain ⟨code, message, rfl⟩ := checkDelete_error_status hcheck
        exact ⟨by rw [hserve], Or.inr ⟨by simp [hcheck], code, message, by rw [hserve]⟩⟩
      · have hgetD : row.hash ≠ parentHash.getD "" := by
          cases hcase : parentHash with
          | none => simpa using hsome
          | some parent =>
              rw [hcase] at hparent
              simpa [eq_comm] using hparent
        have hshut : gateDelete state.vault.files[path]? path parentHash =
            .error (.conflict path (some row)) := by
          simp [gateDelete, hrow, hgetD]
        rw [hshut] at hgate
        exact ⟨by rw [hgate], Or.inl ⟨hcheck, by rw [hgate]⟩⟩

/-- A content hash a put presents is not blank. -/
theorem PutParams.hash_ne_empty {params : PutParams} {hash : String}
    (hhash : params.hash = some hash) : hash ≠ "" := by
  simp only [PutParams.hash, Option.filter_eq_some_iff] at hhash
  simpa using hhash.2

theorem Opposed.first_put_ne {hash : String} {first second : Request}
    (hopposed : Opposed hash first second) {params : PutParams} {body : Bytes}
    (hput : first = .put params body) :
    params.hash ≠ some hash ∧
      ∀ params₂ body₂, second = .put params₂ body₂ → params₂.hash ≠ params.hash := by
  cases hopposed with
  | putPut hhash₁ hhash₂ hne₁ hne₂ hne =>
      obtain ⟨rfl, rfl⟩ := Request.put.inj hput
      refine ⟨by simpa [hhash₁] using hne₁, ?_⟩
      intro params₂ body₂ hsecond
      obtain ⟨rfl, rfl⟩ := Request.put.inj hsecond
      simpa [hhash₁, hhash₂] using hne
  | putDelete hhash₁ hne₁ =>
      obtain ⟨rfl, rfl⟩ := Request.put.inj hput
      exact ⟨by simpa [hhash₁] using hne₁, by simp⟩
  | deletePut hhash₁ hne₁ => cases hput

/-- Two calls of a race served one after the other, from states where the row
of the path is what the race and then its first call left there. -/
theorem Race.answers {config : Config} {path : String} {row : FileEntry} {first second : Call}
    (hrace : Race path row.hash first second) {state later : State}
    (hrow : state.vault.files[path]? = some row)
    (hlater : later.vault.files[path]? =
      (first.serve config state).2.vault.files[path]?) :
    OneWinner path (first.serve config state).1 (second.serve config later).1
        (second.serve config later).2.vault.files[path]? ↔
      first.request.isPut = true ∧ first.ReachesGate config state ∧
        second.ReachesGate config later := by
  obtain ⟨hpath₁, hpath₂, hparent₁, hparent₂, hfault₁, hfault₂, hopposed⟩ := hrace
  have hserve₁ := serve_of_parent config first state hfault₁ (hpath₁ ▸ hrow) hparent₁
  rw [hpath₁] at hserve₁
  rcases hserve₁ with ⟨hgate₁, entry, hanswer₁, hentry, hdeleted, hcontent, htomb⟩ |
    ⟨hgate₁, _, code, message, hanswer₁⟩
  · rw [hentry] at hlater
    cases hrequest : first.request with
    | put params body =>
        -- the row has the new hash: the second call presents the old one
        have hhash := hcontent params body hrequest
        obtain ⟨hnew, hother⟩ := hopposed.first_put_ne hrequest
        have hparent : second.request.parentHash ≠ some entry.hash := by
          rw [hparent₂, ← hhash]
          exact hnew.symm
        have hput : ∀ params₂ body₂, second.request = .put params₂ body₂ →
            params₂.hash ≠ some entry.hash := by
          intro params₂ body₂ hsecond
          rw [← hhash]
          exact hother params₂ body₂ hsecond
        obtain ⟨hsame, hserve₂⟩ := serve_of_other_parent config second later hfault₂
          (hpath₂ ▸ hlater) hparent (PutParams.hash_ne_empty hhash) hput
        rw [hsame, hlater, hanswer₁]
        simp only [Request.isPut, true_and]
        rcases hserve₂ with ⟨hgate₂, hanswer₂⟩ | ⟨hgate₂, code, message, hanswer₂⟩
        · rw [hanswer₂, hpath₂]
          exact ⟨fun _ => ⟨hgate₁, hgate₂⟩, fun _ => Or.inl ⟨entry, rfl, rfl, rfl⟩⟩
        · rw [hanswer₂]
          refine ⟨fun hone => absurd hone (not_oneWinner (by simp) (by simp)), ?_⟩
          rintro ⟨_, hreaches⟩
          exact absurd hreaches hgate₂
    | delete target parentHash =>
        -- the tombstone keeps the hash: the second call passes the gate too
        have hkept : entry.hash = row.hash := htomb (by simp [hrequest, Request.isPut])
        have hserve₂ := serve_of_parent config second later hfault₂ (hpath₂ ▸ hlater)
          (hkept ▸ hparent₂)
        refine ⟨fun hone => absurd hone (not_oneWinner (by simp [hanswer₁]) ?_), ?_⟩
        · intro current
          rcases hserve₂ with ⟨_, entry₂, hanswer₂, _⟩ | ⟨_, _, code, message, hanswer₂⟩ <;>
            simp [hanswer₂]
        · rintro ⟨hput, _⟩
          simp [Request.isPut] at hput
  · refine ⟨?_, fun hcond => absurd hcond.2.1 hgate₁⟩
    rw [hanswer₁]
    rintro (⟨entry, hok, _⟩ | ⟨entry, _, hconflict, _⟩)
    · cases hok
    · cases hconflict

/-- Whatever the interleaving, a race on a live row has one winner exactly when
a put takes the lock first and neither request is refused before the gate. A
delete that comes first leaves its hash on the tombstone, and the put passes
the gate as well. -/
theorem race_has_one_winner_iff (config : Config) {start : State} {board : Board}
    {path : String} {row : FileEntry} {first second : Call}
    {answer₁ answer₂ : Except ApiError Outcome}
    {before between after : List (Call × Except ApiError Outcome)}
    (hreach : Reachable config start board)
    (hlog : board.log = before ++ (first, answer₁) :: (between ++ (second, answer₂) :: after))
    (hothers : ∀ finished ∈ before ++ between ++ after, finished.1.path ≠ path)
    (hrow : start.vault.files[path]? = some row) (hrace : Race path row.hash first second) :
    OneWinner path answer₁ answer₂ board.shared.vault.files[path]? ↔
      first.request.isPut = true ∧
      first.ReachesGate config (settled config start (before.map Prod.fst)) ∧
      second.ReachesGate config
        (settled config start (before.map Prod.fst ++ first :: between.map Prod.fst)) := by
  obtain ⟨hanswered, hvault, _⟩ := reachable_settled hreach
  have hframe : ∀ state (calls : List (Call × Except ApiError Outcome)),
      calls ⊆ before ++ between ++ after →
      (settled config state (calls.map Prod.fst)).vault.files[path]? =
        state.vault.files[path]? := by
    intro state calls hsubset
    apply settled_files_of_ne
    intro call hcall
    obtain ⟨finished, hfinished, rfl⟩ := List.mem_map.mp hcall
    exact hothers finished (hsubset hfinished)
  have hfirst := hanswered before first answer₁ _ hlog
  have hsecond := hanswered (before ++ (first, answer₁) :: between) second answer₂ after
    (by simpa using hlog)
  rw [List.map_append, List.map_cons] at hsecond
  have hfinal : board.shared.vault.files[path]? =
      (second.serve config (settled config start
        (before.map Prod.fst ++ first :: between.map Prod.fst))).2.vault.files[path]? := by
    rw [hvault, hlog]
    simp only [List.map_append, List.map_cons, settled_append, settled_cons]
    exact hframe _ after (by simp)
  rw [hfirst, hsecond, hfinal]
  refine hrace.answers ?_ ?_
  · rw [hframe start before (by simp), hrow]
  · rw [settled_append, settled_cons]
    exact hframe _ between (by simp)

def racingPut : Call where
  fault := none
  now := 2
  nonce := Aead.zeroNonce
  userId := "user_1"
  request := .put ⟨"note", some "h", some "h1", none⟩ [104]

def racingDelete : Call where
  fault := none
  now := 2
  nonce := Aead.zeroNonce
  userId := "user_1"
  request := .delete "note" (some "h")

theorem racing_put_delete : Race "note" "h" racingPut racingDelete :=
  ⟨rfl, rfl, rfl, rfl, rfl, rfl, @Opposed.putDelete _ _ _ "h1" _ _ (by decide) (by decide)⟩

theorem racing_delete_put : Race "note" "h" racingDelete racingPut :=
  ⟨rfl, rfl, rfl, rfl, rfl, rfl, @Opposed.deletePut _ _ _ "h1" _ _ (by decide) (by decide)⟩

/-- The put takes the lock first: it wins, and the delete is a conflict. -/
theorem racing_put_wins_in_sample :
    ∃ (board : Board) (answer₁ answer₂ : Except ApiError Outcome),
      Reachable sampleConfig sampleState board ∧
      board.log = [(racingPut, answer₁), (racingDelete, answer₂)] ∧
      OneWinner "note" answer₁ answer₂ board.shared.vault.files["note"]? := by
  have hreach := reachable_of_calls sampleConfig sampleState [racingPut, racingDelete]
  refine ⟨_, _, _, hreach, rfl, ?_⟩
  have hrow : sampleState.vault.files["note"]? =
      some { hash := "h", modified := 1, size := 2 } := by decide
  have hiff := @race_has_one_winner_iff sampleConfig sampleState _ "note" _ racingPut
    racingDelete _ _ [] [] [] hreach rfl (by simp) hrow racing_put_delete
  refine hiff.mpr ⟨rfl, ⟨"h1", by decide⟩, ?_⟩
  change checkDelete none _ "user_1" "note" = .ok ()
  decide

/-- The delete takes the lock first: both requests are answered with success. -/
theorem racing_delete_and_put_both_succeed_in_sample :
    ∃ (board : Board) (answer₁ answer₂ : Except ApiError Outcome),
      Race "note" "h" racingDelete racingPut ∧
      sampleState.vault.files["note"]? = some { hash := "h", modified := 1, size := 2 } ∧
      Reachable sampleConfig sampleState board ∧
      board.log = [(racingDelete, answer₁), (racingPut, answer₂)] ∧
      (∃ entry, answer₁ = .ok (.written entry)) ∧ (∃ entry, answer₂ = .ok (.written entry)) ∧
      ¬ OneWinner "note" answer₁ answer₂ board.shared.vault.files["note"]? := by
  have hreach := reachable_of_calls sampleConfig sampleState [racingDelete, racingPut]
  have hlog : served sampleConfig sampleState [racingDelete, racingPut] =
      [(racingDelete, .ok (.written { hash := "h", modified := 2, size := 2, deleted := true })),
        (racingPut, .ok (.written { hash := "h1", modified := 2, size := 1 }))] := by
    simp only [served, List.cons.injEq, Prod.mk.injEq, true_and, and_true]
    decide
  rw [hlog] at hreach
  refine ⟨_, _, _, racing_delete_put, by decide, hreach, rfl, ⟨_, rfl⟩, ⟨_, rfl⟩, ?_⟩
  exact not_oneWinner (by simp) (by simp)

end ObSink.Server
