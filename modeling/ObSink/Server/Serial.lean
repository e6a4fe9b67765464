import ObSink.Lib.Critical
import ObSink.Server.Rollback

/-! # Concurrent writes under the vault lock

Every write of a vault runs its checks, its blob change and its commit while
it holds the vault row lock. Requests of any number of clients arrive and take
the lock in any order; what the finished ones did is what they would have done
one after the other.
-/

namespace ObSink.Server

open Aead (Nonce)

/-- One write with what it brings along: its fault, if any, the time it read
before it asked for the lock, and the nonce its blob is sealed with. -/
structure Call where
  fault : Option Fault
  now : Nat
  nonce : Nonce
  userId : String
  request : Request

/-- How far a write that holds the lock has come. -/
inductive Stage where
  | locked
  | admitted (current : Option FileEntry) (entry : FileEntry)
  | moved (undo : BlobUndo) (entry : FileEntry)

def Call.path (call : Call) : String := call.request.path

/-- The blob change of an admitted write. -/
def Call.moveBlob (config : Config) (call : Call) (current : Option FileEntry) (state : State) :
    Except String BlobUndo × BlobStore :=
  match call.request with
  | .put params body =>
      state.blobs.replaceLive call.fault (config.pathName params.path)
        (sealBlob config.aead config.keys call.nonce state.vault.id params.path body)
        (current.any fun entry => !entry.deleted) call.now
  | .delete path _ => state.blobs.trashLive call.fault (config.pathName path) call.now

/-- One step of a write that holds the lock. -/
def Call.step (config : Config) (call : Call) :
    Stage → State → (Stage ⊕ Except ApiError Outcome) × State
  | .locked, state =>
      match call.request with
      | .put params body =>
          match admitPut config call.fault state.vault call.userId params body.length with
          | .error error => (.inr (.error error), state)
          | .ok .alreadyThere => (.inr (.ok .alreadyThere), state)
          | .ok (.write contentHash current) =>
              (.inl (.admitted current
                (putEntry params contentHash current call.now body.length)), state)
      | .delete path parentHash =>
          match admitDelete call.fault state.vault call.userId path parentHash with
          | .error error => (.inr (.error error), state)
          | .ok current => (.inl (.admitted current (tombstone current call.now)), state)
  | .admitted current entry, state =>
      match call.moveBlob config current state with
      | (.error message, blobs) => (.inr (.error (.internal message)), { state with blobs })
      | (.ok undo, blobs) => (.inl (.moved undo entry), { state with blobs })
  | .moved undo entry, state =>
      match commitEntry call.fault state.vault call.path entry call.now with
      | .error message =>
          (.inr (.error (.internal message)), { state with blobs := state.blobs.undo undo })
      | .ok vault => (.inr (.ok (.written entry)), { state with vault })

def machine (config : Config) : Critical.Machine State Call Stage (Except ApiError Outcome) where
  enter := .locked
  step := Call.step config

/-- A write on its own. -/
def Call.serve (config : Config) (call : Call) (state : State) :
    Except ApiError Outcome × State :=
  applyRequest config call.fault call.now call.nonce call.userId call.request state

/-- The first step of a write changes nothing; it answers, or it admits. -/
theorem locked_cases (config : Config) (call : Call) (state : State) :
    (∃ answer, call.step config .locked state = (.inr answer, state) ∧
      ∀ entry, answer ≠ .ok (.written entry)) ∨
    ∃ current entry, call.step config .locked state = (.inl (.admitted current entry), state) := by
  unfold Call.step
  cases call.request with
  | put params body =>
      simp only
      split
      next error hadmits => exact Or.inl ⟨_, rfl, by simp⟩
      next hadmits => exact Or.inl ⟨_, rfl, by simp⟩
      next contentHash current hadmits => exact Or.inr ⟨_, _, rfl⟩
  | delete path parentHash =>
      simp only
      split
      next error hadmits => exact Or.inl ⟨_, rfl, by simp⟩
      next current hadmits => exact Or.inr ⟨_, _, rfl⟩

/-- What a write that holds the lock has done so far. -/
theorem partial_cases {config : Config} {call : Call} {state middle : State} {stage : Stage}
    (hpart : Critical.Partial (machine config) call state stage middle) :
    (stage = .locked ∧ middle = state) ∨
    (∃ current entry, stage = .admitted current entry ∧ middle = state ∧
      call.step config .locked state = (.inl stage, state)) ∨
    ∃ current undo entry blobs, stage = .moved undo entry ∧ middle = { state with blobs } ∧
      call.step config .locked state = (.inl (.admitted current entry), state) ∧
      call.moveBlob config current state = (.ok undo, blobs) := by
  induction hpart with
  | enter => exact Or.inl ⟨rfl, rfl⟩
  | @step stage next middle after before hstep ih =>
      rcases ih with ⟨rfl, rfl⟩ | ⟨current, entry, rfl, rfl, hlocked⟩ |
        ⟨current, undo, entry, blobs, rfl, rfl, hlocked, hmove⟩
      · change call.step config .locked middle = (.inl next, after) at hstep
        rcases locked_cases config call middle with ⟨answer, hlocked, _⟩ | ⟨current, entry, hlocked⟩
        · simp [hlocked] at hstep
        · rw [hlocked] at hstep
          obtain ⟨hnext, rfl⟩ := Prod.mk.inj hstep
          obtain rfl := Sum.inl.inj hnext
          exact Or.inr (Or.inl ⟨current, entry, rfl, rfl, hlocked⟩)
      · change call.step config (.admitted current entry) middle = (.inl next, after) at hstep
        unfold Call.step at hstep
        simp only at hstep
        split at hstep
        next => simp at hstep
        next undo blobs hmove =>
          obtain ⟨hnext, rfl⟩ := Prod.mk.inj hstep
          obtain rfl := (Sum.inl.inj hnext).symm
          exact Or.inr (Or.inr ⟨current, undo, entry, blobs, rfl, rfl, hlocked, hmove⟩)
      · change call.step config (.moved undo entry) { state with blobs } = (.inl next, after)
          at hstep
        unfold Call.step at hstep
        simp only at hstep
        split at hstep <;> simp at hstep

/-- What the first step under the lock admits, the write on its own admits. -/
theorem serve_of_admitted {config : Config} {call : Call} {state : State}
    {current : Option FileEntry} {entry : FileEntry}
    (hlocked : call.step config .locked state = (.inl (.admitted current entry), state)) :
    call.serve config state =
      match call.moveBlob config current state with
      | (.error message, blobs) => (.error (.internal message), { state with blobs })
      | (.ok undo, blobs) =>
          match commitEntry call.fault state.vault call.path entry call.now with
          | .error message => (.error (.internal message), { state with blobs := blobs.undo undo })
          | .ok vault => (.ok (.written entry), { vault, blobs }) := by
  obtain ⟨fault, now, nonce, userId, request⟩ := call
  cases request with
  | put params body =>
      simp only [Call.step] at hlocked
      split at hlocked
      next => simp at hlocked
      next => simp at hlocked
      next contentHash row hadmits =>
        simp only [Prod.mk.injEq, Sum.inl.injEq, Stage.admitted.injEq, and_true] at hlocked
        obtain ⟨rfl, rfl⟩ := hlocked
        simp only [Call.serve, applyRequest, applyPut, hadmits]
        rfl
  | delete path parentHash =>
      simp only [Call.step] at hlocked
      split at hlocked
      next => simp at hlocked
      next row hadmits =>
        simp only [Prod.mk.injEq, Sum.inl.injEq, Stage.admitted.injEq, and_true] at hlocked
        obtain ⟨rfl, rfl⟩ := hlocked
        simp only [Call.serve, applyRequest, applyDelete, hadmits]
        rfl

/-- A write that is answered by its first step under the lock. -/
theorem serve_of_refused {config : Config} {call : Call} {state after : State}
    {answer : Except ApiError Outcome}
    (hlocked : call.step config .locked state = (.inr answer, after)) :
    call.serve config state = (answer, after) := by
  obtain ⟨fault, now, nonce, userId, request⟩ := call
  cases request with
  | put params body =>
      simp only [Call.step] at hlocked
      split at hlocked <;> simp_all [Call.serve, applyRequest, applyPut]
  | delete path parentHash =>
      simp only [Call.step] at hlocked
      split at hlocked <;> simp_all [Call.serve, applyRequest, applyDelete]

/-- The steps of a write under the lock come to the write on its own. -/
theorem whole_serve {config : Config} {call : Call} {state after : State}
    {answer : Except ApiError Outcome}
    (hwhole : Critical.Whole (machine config) call state answer after) :
    call.serve config state = (answer, after) := by
  cases hwhole with
  | @release stage middle _ _ before hstep =>
      change call.step config stage middle = (.inr answer, after) at hstep
      rcases partial_cases before with ⟨rfl, rfl⟩ | ⟨current, entry, rfl, rfl, hlocked⟩ |
        ⟨current, undo, entry, blobs, rfl, rfl, hlocked, hmove⟩
      · exact serve_of_refused hstep
      · rw [serve_of_admitted hlocked]
        unfold Call.step at hstep
        simp only at hstep
        split at hstep
        next message blobs hmove =>
          obtain ⟨hanswer, rfl⟩ := Prod.mk.inj hstep
          obtain rfl := Sum.inr.inj hanswer
          rfl
        next => simp at hstep
      · rw [serve_of_admitted hlocked, hmove]
        unfold Call.step at hstep
        simp only at hstep ⊢
        split at hstep
        next message hcommit =>
          obtain ⟨hanswer, rfl⟩ := Prod.mk.inj hstep
          obtain rfl := Sum.inr.inj hanswer
          rfl
        next vault hcommit =>
          obtain ⟨hanswer, rfl⟩ := Prod.mk.inj hstep
          obtain rfl := Sum.inr.inj hanswer
          rfl

/-- A write on its own is one run through its steps under the lock. -/
theorem serve_whole (config : Config) (call : Call) (state : State) :
    Critical.Whole (machine config) call state (call.serve config state).1
      (call.serve config state).2 := by
  rcases locked_cases config call state with ⟨answer, hlocked, _⟩ | ⟨current, entry, hlocked⟩
  · rw [serve_of_refused hlocked]
    exact .release .enter hlocked
  · have hfirst : Critical.Partial (machine config) call state (.admitted current entry) state :=
      .step .enter hlocked
    rw [serve_of_admitted hlocked]
    rcases hmove : call.moveBlob config current state with ⟨message | undo, blobs⟩
    · refine .release hfirst ?_
      simp only [machine, Call.step, hmove]
    · have hsecond : Critical.Partial (machine config) call state (.moved undo entry)
          { state with blobs } := by
        refine .step hfirst ?_
        simp only [machine, Call.step, hmove]
      refine .release hsecond ?_
      simp only [machine, Call.step]
      cases commitEntry call.fault state.vault call.path entry call.now with
      | error message => rfl
      | ok vault => rfl

/-! ## The rows after a write -/

/-- A write either upserts the row of its path or leaves the rows alone. -/
theorem serve_vault (config : Config) (call : Call) (state : State) :
    (∃ entry, (call.serve config state).1 = .ok (.written entry) ∧
      (call.serve config state).2.vault = state.vault.upsertEntry call.path entry call.now) ∨
    ((∀ entry, (call.serve config state).1 ≠ .ok (.written entry)) ∧
      (call.serve config state).2.vault = state.vault) := by
  rcases locked_cases config call state with ⟨answer, hlocked, hrefused⟩ | ⟨current, entry, hlocked⟩
  · rw [serve_of_refused hlocked]
    exact Or.inr ⟨hrefused, rfl⟩
  · rw [serve_of_admitted hlocked]
    split
    next => exact Or.inr ⟨by simp, rfl⟩
    next undo blobs hmove =>
      split
      next => exact Or.inr ⟨by simp, rfl⟩
      next vault hcommit =>
        refine Or.inl ⟨entry, rfl, ?_⟩
        unfold commitEntry at hcommit
        simp only [bind, Except.bind] at hcommit
        repeat' split at hcommit
        all_goals first
          | exact (Except.ok.inj hcommit).symm
          | cases hcommit

/-- A write leaves the rows of other paths alone. -/
theorem serve_files_of_ne (config : Config) (call : Call) (state : State) {path : String}
    (hne : call.path ≠ path) :
    (call.serve config state).2.vault.files[path]? = state.vault.files[path]? := by
  rcases serve_vault config call state with ⟨entry, _, hvault⟩ | ⟨_, hvault⟩
  · rw [hvault]
    simp [Vault.upsertEntry, Std.ExtTreeMap.getElem?_insert, hne]
  · rw [hvault]

/-- With no fault the blob change of an admitted write succeeds. -/
theorem moveBlob_none (config : Config) (call : Call) (current : Option FileEntry)
    (state : State) (hfault : call.fault = none) :
    ∃ undo blobs, call.moveBlob config current state = (.ok undo, blobs) := by
  obtain ⟨fault, now, nonce, userId, request⟩ := call
  obtain rfl : fault = none := hfault
  have hmove : ∀ (store : BlobStore) tier name, ∃ entry moved,
      store.moveLiveReturning none tier name now = (.ok entry, moved) := by
    intro store tier name
    cases hlive : store.live name with
    | none => exact ⟨none, store, store.moveLiveReturning_of_empty none tier name now hlive⟩
    | some blob =>
        exact ⟨_, _,
          store.moveLiveReturning_of_no_fault none tier name now blob hlive (by simp)⟩
  cases request with
  | put params body =>
      simp only [Call.moveBlob, BlobStore.replaceLive]
      obtain ⟨entry, moved, heq⟩ := hmove state.blobs .versions (config.pathName params.path)
      cases current.any fun entry => !entry.deleted with
      | true =>
          simp only [↓reduceIte, heq]
          rw [moved.putLive_of_no_fault none _ _ (by simp)]
          exact ⟨_, _, rfl⟩
      | false =>
          simp only [Bool.false_eq_true, ↓reduceIte]
          rw [state.blobs.putLive_of_no_fault none _ _ (by simp)]
          exact ⟨_, _, rfl⟩
  | delete path parentHash =>
      simp only [Call.moveBlob, BlobStore.trashLive]
      obtain ⟨entry, moved, heq⟩ := hmove state.blobs .trash (config.pathName path)
      rw [heq]
      exact ⟨_, _, rfl⟩

/-- A fault-free put, from its checks and the gate. -/
theorem serve_put (config : Config) (call : Call) (state : State) {params : PutParams}
    {body : Bytes} (hfault : call.fault = none) (hrequest : call.request = .put params body) :
    (∃ error, checkPut config none state.vault call.userId params body.length = .error error ∧
      call.serve config state = (.error error, state)) ∨
    ∃ contentHash,
      checkPut config none state.vault call.userId params body.length = .ok contentHash ∧
      match gatePut state.vault.files[params.path]? params contentHash with
      | .error error => call.serve config state = (.error error, state)
      | .ok .alreadyThere => call.serve config state = (.ok .alreadyThere, state)
      | .ok (.write _ _) =>
          let entry := putEntry params contentHash state.vault.files[params.path]? call.now
            body.length
          call.serve config state =
            (.ok (.written entry),
              { vault := state.vault.upsertEntry params.path entry call.now
                blobs := (call.moveBlob config state.vault.files[params.path]? state).2 }) := by
  have hlocked : call.step config .locked state =
      match admitPut config none state.vault call.userId params body.length with
      | .error error => (.inr (.error error), state)
      | .ok .alreadyThere => (.inr (.ok .alreadyThere), state)
      | .ok (.write contentHash current) =>
          (.inl (.admitted current
            (putEntry params contentHash current call.now body.length)), state) := by
    simp only [Call.step, hrequest, hfault]
  cases hcheck : checkPut config none state.vault call.userId params body.length with
  | error error =>
      refine Or.inl ⟨error, rfl, serve_of_refused ?_⟩
      rw [hlocked]
      simp only [admitPut, hcheck]
  | ok contentHash =>
      refine Or.inr ⟨contentHash, rfl, ?_⟩
      have hadmits : admitPut config none state.vault call.userId params body.length =
          gatePut state.vault.files[params.path]? params contentHash := by
        simp only [admitPut, hcheck]
      rw [hadmits] at hlocked
      split
      next error hgate =>
        rw [hgate] at hlocked
        exact serve_of_refused hlocked
      next hgate =>
        rw [hgate] at hlocked
        exact serve_of_refused hlocked
      next hash current hgate =>
        rw [hgate] at hlocked
        obtain ⟨rfl, rfl, _⟩ := gatePut_write hgate
        obtain ⟨undo, blobs, hmove⟩ := moveBlob_none config call _ state hfault
        rw [serve_of_admitted hlocked, hmove]
        simp only [hfault, commitEntry_none, Call.path, hrequest, Request.path]

/-- A fault-free delete, from its checks and the gate. -/
theorem serve_delete (config : Config) (call : Call) (state : State) {path : String}
    {parentHash : Option String} (hfault : call.fault = none)
    (hrequest : call.request = .delete path parentHash) :
    (∃ error, checkDelete none state.vault call.userId path = .error error ∧
      call.serve config state = (.error error, state)) ∨
    checkDelete none state.vault call.userId path = .ok () ∧
      match gateDelete state.vault.files[path]? path parentHash with
      | .error error => call.serve config state = (.error error, state)
      | .ok _ =>
          let entry := tombstone state.vault.files[path]? call.now
          call.serve config state =
            (.ok (.written entry),
              { vault := state.vault.upsertEntry path entry call.now
                blobs := (call.moveBlob config state.vault.files[path]? state).2 }) := by
  have hlocked : call.step config .locked state =
      match admitDelete none state.vault call.userId path parentHash with
      | .error error => (.inr (.error error), state)
      | .ok current => (.inl (.admitted current (tombstone current call.now)), state) := by
    simp only [Call.step, hrequest, hfault]
  cases hcheck : checkDelete none state.vault call.userId path with
  | error error =>
      refine Or.inl ⟨error, rfl, serve_of_refused ?_⟩
      rw [hlocked]
      simp only [admitDelete, hcheck]
  | ok _ =>
      refine Or.inr ⟨rfl, ?_⟩
      have hadmits : admitDelete none state.vault call.userId path parentHash =
          gateDelete state.vault.files[path]? path parentHash := by
        simp only [admitDelete, hcheck]
      rw [hadmits] at hlocked
      split
      next error hgate =>
        rw [hgate] at hlocked
        exact serve_of_refused hlocked
      next current hgate =>
        rw [hgate] at hlocked
        obtain ⟨rfl, _⟩ := gateDelete_ok hgate
        obtain ⟨undo, blobs, hmove⟩ := moveBlob_none config call _ state hfault
        rw [serve_of_admitted hlocked, hmove]
        simp only [hfault, commitEntry_none, Call.path, hrequest, Request.path]

/-! ## Any interleaving is a serial execution -/

/-- The vault and its requests, in flight and finished. -/
abbrev Board := Critical.Config State Call Stage (Except ApiError Outcome)

/-- A configuration some interleaving of requests leads to. -/
def Reachable (config : Config) (start : State) (board : Board) : Prop :=
  Relation.ReflTransGen (Critical.Step (machine config)) (.start start) board

/-- The state after serving the calls one after the other. -/
def settled (config : Config) (start : State) (calls : List Call) : State :=
  calls.foldl (fun state call => (call.serve config state).2) start

@[simp] theorem settled_nil (config : Config) (start : State) :
    settled config start [] = start := rfl

theorem settled_append (config : Config) (start : State) (before after : List Call) :
    settled config start (before ++ after) =
      settled config (settled config start before) after := by
  simp [settled, List.foldl_append]

@[simp] theorem settled_cons (config : Config) (start : State) (call : Call)
    (rest : List Call) :
    settled config start (call :: rest) = settled config (call.serve config start).2 rest := rfl

/-- Each finished call got the answer it would have got on its own. -/
def Answered (config : Config) (start : State) (log : List (Call × Except ApiError Outcome)) :
    Prop :=
  ∀ before call answer after, log = before ++ (call, answer) :: after →
    answer = (call.serve config (settled config start (before.map Prod.fst))).1

theorem serial_settled {config : Config} {start after : State}
    {log : List (Call × Except ApiError Outcome)}
    (hserial : Critical.Serial (machine config) start log after) :
    after = settled config start (log.map Prod.fst) ∧ Answered config start log := by
  induction hserial with
  | nil =>
      refine ⟨rfl, ?_⟩
      intro before call answer after hlog
      simp at hlog
  | @snoc log middle after call answer before hwhole ih =>
      obtain ⟨rfl, hanswered⟩ := ih
      have hserve := whole_serve hwhole
      refine ⟨?_, ?_⟩
      · rw [List.map_append, settled_append]
        simp [hserve]
      · intro first other reply rest hlog
        -- the call is the last one, or it was there before
        rcases List.eq_nil_or_concat rest with rfl | ⟨init, last, rfl⟩
        · obtain ⟨rfl, hlast⟩ := List.append_inj' hlog rfl
          simp only [List.cons.injEq, Prod.mk.injEq, and_true] at hlast
          obtain ⟨rfl, rfl⟩ := hlast
          rw [hserve]
        · have hsplit : log ++ [(call, answer)] =
              (first ++ (other, reply) :: init) ++ [last] := by
            simpa using hlog
          obtain ⟨hinit, _⟩ := List.append_inj' hsplit rfl
          exact hanswered first other reply init hinit

/-- The calls with the answers they get when served one after the other. -/
def served (config : Config) (start : State) : List Call → List (Call × Except ApiError Outcome)
  | [] => []
  | call :: rest =>
      (call, (call.serve config start).1) :: served config (call.serve config start).2 rest

theorem fst_mem_of_mem_served {config : Config} {start : State} {calls : List Call}
    {done : Call × Except ApiError Outcome} (hdone : done ∈ served config start calls) :
    done.1 ∈ calls := by
  induction calls generalizing start with
  | nil => cases hdone
  | cons call rest ih =>
      rcases List.mem_cons.mp hdone with rfl | hrest
      · exact List.mem_cons_self
      · exact List.mem_cons_of_mem _ (ih hrest)

/-- From a free lock, the calls can be served one after the other. -/
theorem serve_run (config : Config) (calls : List Call) (board : Board)
    (hfree : board.holder = none) :
    Relation.ReflTransGen (Critical.Step (machine config)) board
      { board with
        shared := settled config board.shared calls
        log := board.log ++ served config board.shared calls } := by
  induction calls generalizing board with
  | nil => simp [served, Relation.ReflTransGen.refl]
  | cons call rest ih =>
      have hfirst := (serve_whole config call board.shared).run (machine config) hfree
      refine hfirst.trans ?_
      have hrest := ih { board with
        shared := (call.serve config board.shared).2
        log := board.log ++ [(call, (call.serve config board.shared).1)] } hfree
      simpa [served] using hrest

/-- Serving the calls one after the other is one of the interleavings. -/
theorem reachable_of_calls (config : Config) (start : State) (calls : List Call) :
    Reachable config start ⟨settled config start calls, [], none, served config start calls⟩ :=
  serve_run config calls (.start start) rfl

/-- Calls on other paths leave the row of a path alone. -/
theorem settled_files_of_ne (config : Config) (start : State) {path : String}
    {calls : List Call} (hne : ∀ call ∈ calls, call.path ≠ path) :
    (settled config start calls).vault.files[path]? = start.vault.files[path]? := by
  induction calls generalizing start with
  | nil => rfl
  | cons call rest ih =>
      rw [settled_cons, ih]
      · exact serve_files_of_ne config call start (hne call (by simp))
      · intro later hlater
        exact hne later (by simp [hlater])

/-- The rows of a reachable configuration are those of a serial execution of
its finished calls; only the blobs of the path the lock holder is writing can
be ahead of them. -/
theorem reachable_settled {config : Config} {start : State} {board : Board}
    (hreach : Reachable config start board) :
    Answered config start board.log ∧
      board.shared.vault = (settled config start (board.log.map Prod.fst)).vault ∧
      (board.holder = none → board.shared = settled config start (board.log.map Prod.fst)) := by
  obtain ⟨state, hserial, hholder⟩ := Critical.explained_of_reachable (machine config) hreach
  obtain ⟨rfl, hanswered⟩ := serial_settled hserial
  refine ⟨hanswered, ?_, ?_⟩
  · cases hsome : board.holder with
    | none =>
        rw [hsome] at hholder
        exact congrArg State.vault hholder
    | some held =>
        rw [hsome] at hholder
        rcases partial_cases hholder with ⟨_, hsame⟩ | ⟨_, _, _, hsame, _⟩ |
          ⟨_, _, _, _, _, hsame, _⟩ <;> rw [hsame]
  · intro hnone
    rw [hnone] at hholder
    exact hholder

end ObSink.Server
