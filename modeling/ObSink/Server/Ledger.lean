import ObSink.Lib.TreeMap
import ObSink.Server.Serial

/-! # Rows and blobs agree

The ledger of a path is what its finished writes should have left behind: the
content that is current, the contents later puts replaced and those deletes
removed. With no fault, in every interleaving, the row, the live blob, the
versions and the trash of a path are those of its ledger.
-/

namespace ObSink.Server

open Aead (Nonce)

/-- A write that took effect. -/
inductive Write where
  | put (hash : String) (body : Bytes)
  | delete
  deriving DecidableEq, Repr

def Write.body : Write → Option Bytes
  | .put _ body => some body
  | .delete => none

/-- The write an answered call made. -/
def Call.write (call : Call) : Except ApiError Outcome → Option Write
  | .ok (.written _) =>
      match call.request with
      | .put params body => params.hash.map fun hash => .put hash body
      | .delete _ _ => some .delete
  | _ => none

/-- The writes of one path, in the order they took the lock. -/
def writes (path : String) (log : List (Call × Except ApiError Outcome)) : List Write :=
  log.filterMap fun (call, answer) => if call.path = path then call.write answer else none

structure Ledger where
  current : Option (String × Bytes)
  replaced : List Bytes
  removed : List Bytes
  deriving DecidableEq, Repr

namespace Ledger

def empty : Ledger := ⟨none, [], []⟩

def record (ledger : Ledger) : Write → Ledger
  | .put hash body =>
      { ledger with
        current := some (hash, body)
        replaced := ledger.replaced ++ (ledger.current.map Prod.snd).toList }
  | .delete =>
      { ledger with
        current := none
        removed := ledger.removed ++ (ledger.current.map Prod.snd).toList }

def ofWrites (writes : List Write) : Ledger :=
  writes.foldl record empty

/-- Every content the ledger knows, once for each time it was put. -/
def bodies (ledger : Ledger) : List Bytes :=
  (ledger.current.map Prod.snd).toList ++ ledger.replaced ++ ledger.removed

theorem ofWrites_concat (writes : List Write) (write : Write) :
    ofWrites (writes ++ [write]) = (ofWrites writes).record write := by
  simp [ofWrites, List.foldl_append]

/-- A put adds its body; a delete moves one. -/
theorem record_bodies (ledger : Ledger) (write : Write) :
    (ledger.record write).bodies.Perm (ledger.bodies ++ write.body.toList) := by
  obtain ⟨current, replaced, removed⟩ := ledger
  cases write with
  | put hash body =>
      simp only [record, bodies, Write.body, Option.map_some, Option.toList_some]
      rw [List.perm_iff_count]
      intro other
      simp only [List.count_append]
      omega
  | delete =>
      simp only [record, bodies, Write.body, Option.map_none, Option.toList_none]
      rw [List.perm_iff_count]
      intro other
      simp only [List.count_append, List.count_nil]
      omega

/-- No content that was ever put is forgotten or counted twice. -/
theorem ofWrites_bodies (writes : List Write) :
    (ofWrites writes).bodies.Perm (writes.filterMap Write.body) := by
  induction writes using List.reverseRecOn with
  | nil => exact .refl _
  | append_singleton writes write ih =>
      rw [ofWrites_concat, List.filterMap_append]
      refine (record_bodies _ write).trans ?_
      apply ih.append
      cases write <;> simp [Write.body]

end Ledger

/-- What opening the history entries of a path yields. -/
def opened (config : Config) (state : State) (tier : Tier) (path : String) :
    List (Except CryptoError Bytes) :=
  (state.blobs.history tier (config.pathName path)).toList.map fun entry =>
    openBlob config.aead config.keys state.vault.id path entry.2

/-- The current content of a ledger against row and live blob: a live row of
its hash and size whose blob opens to it, or no live row and no blob. -/
def CurrentAgrees (config : Config) (path : String) (state : State) :
    Option (String × Bytes) → Prop
  | none => version state.vault.files[path]? = .gone ∧
      state.blobs.live (config.pathName path) = none
  | some (hash, body) => ∃ entry blob,
      state.vault.files[path]? = some entry ∧ entry.deleted = false ∧
      entry.hash = hash ∧ entry.size = body.length ∧
      state.blobs.live (config.pathName path) = some blob ∧
      openBlob config.aead config.keys state.vault.id path blob = .ok body

/-- Row, live blob, versions and trash of a path are those of its ledger. -/
structure Agrees (config : Config) (path : String) (ledger : Ledger) (state : State) : Prop where
  current : CurrentAgrees config path state ledger.current
  versions : (opened config state .versions path).Perm (ledger.replaced.map .ok)
  trash : (opened config state .trash path).Perm (ledger.removed.map .ok)

/-! ## Blob changes stay at their own name -/

/-- Two stores have the same live blob and history under a name. -/
structure BlobStore.SameAt (name : String) (left right : BlobStore) : Prop where
  live : left.live name = right.live name
  history : ∀ tier, left.history tier name = right.history tier name

theorem BlobStore.SameAt.refl (name : String) (store : BlobStore) : store.SameAt name store :=
  ⟨rfl, fun _ => rfl⟩

theorem BlobStore.SameAt.trans {name : String} {first second third : BlobStore}
    (hfirst : first.SameAt name second) (hsecond : second.SameAt name third) :
    first.SameAt name third :=
  ⟨hfirst.live.trans hsecond.live, fun tier => (hfirst.history tier).trans (hsecond.history tier)⟩

theorem BlobStore.setLive_sameAt (store : BlobStore) {name other : String} (blob : Option Bytes)
    (hne : other ≠ name) : (store.setLive name blob).SameAt other store :=
  ⟨setLive_live_of_ne store blob hne, fun _ => rfl⟩

theorem BlobStore.putLive_sameAt (store : BlobStore) (fault : Option Fault)
    {name other : String} (sealed : Bytes) (hne : other ≠ name) :
    (store.putLive fault name sealed).2.SameAt other store := by
  unfold putLive
  simp only
  split
  next => exact store.setLive_sameAt _ hne
  next => exact .refl other store

theorem BlobStore.moveLiveReturning_sameAt (store : BlobStore) (fault : Option Fault)
    (tier : Tier) {name other : String} (now : Nat) (hne : other ≠ name) :
    (store.moveLiveReturning fault tier name now).2.SameAt other store := by
  unfold moveLiveReturning
  split
  next => exact .refl other store
  next blob hlive =>
    simp only
    split
    next =>
      refine ⟨setLive_live_of_ne store none hne, ?_⟩
      intro tier'
      exact setHistory_history_of_ne _ tier tier' name other _ (Or.inr hne)
    next => exact .refl other store

theorem Call.moveBlob_sameAt (config : Config) (call : Call) (current : Option FileEntry)
    (state : State) {name : String} (hne : name ≠ config.pathName call.path) :
    (call.moveBlob config current state).2.SameAt name state.blobs := by
  obtain ⟨fault, now, nonce, userId, request⟩ := call
  cases request with
  | put params body =>
      simp only [Call.path, Request.path] at hne
      simp only [Call.moveBlob, BlobStore.replaceLive]
      -- the move comes first, if the row is live, and then the new blob
      have hmoved : ∀ (archive : Bool), BlobStore.SameAt name
          (if archive then state.blobs.moveLiveReturning fault .versions
            (config.pathName params.path) now else (.ok none, state.blobs)).2 state.blobs := by
        intro archive
        cases archive with
        | true => exact state.blobs.moveLiveReturning_sameAt fault .versions now hne
        | false => exact .refl name state.blobs
      specialize hmoved (current.any fun entry => !entry.deleted)
      revert hmoved
      generalize (if (current.any fun entry => !entry.deleted) = true then
        state.blobs.moveLiveReturning fault .versions (config.pathName params.path) now
          else (.ok none, state.blobs)) = moved
      intro hmoved
      split
      next => exact hmoved
      next =>
        split
        next written hput =>
          have hwritten := moved.2.putLive_sameAt fault (sealBlob config.aead config.keys nonce
            state.vault.id params.path body) hne
          rw [hput] at hwritten
          exact hwritten.trans hmoved
        next written hput =>
          have hwritten := moved.2.putLive_sameAt fault (sealBlob config.aead config.keys nonce
            state.vault.id params.path body) hne
          rw [hput] at hwritten
          exact hwritten.trans hmoved
  | delete path parentHash =>
      simp only [Call.path, Request.path] at hne
      have hmoved := state.blobs.moveLiveReturning_sameAt fault .trash now hne
      simp only [Call.moveBlob, BlobStore.trashLive]
      revert hmoved
      generalize state.blobs.moveLiveReturning fault .trash (config.pathName path) now = moved
      intro hmoved
      split <;> exact hmoved

/-- Agreement only looks at the vault id, the row of the path and the blobs
under its name. -/
theorem Agrees.congr {config : Config} {path : String} {ledger : Ledger} {state other : State}
    (hagrees : Agrees config path ledger state) (hid : other.vault.id = state.vault.id)
    (hrow : other.vault.files[path]? = state.vault.files[path]?)
    (hblobs : other.blobs.SameAt (config.pathName path) state.blobs) :
    Agrees config path ledger other := by
  obtain ⟨hcurrent, hversions, htrash⟩ := hagrees
  refine ⟨?_, ?_, ?_⟩
  · unfold CurrentAgrees at hcurrent ⊢
    rw [hid, hrow, hblobs.live]
    exact hcurrent
  · unfold opened at hversions ⊢
    rw [hid, hblobs.history]
    exact hversions
  · unfold opened at htrash ⊢
    rw [hid, hblobs.history]
    exact htrash

/-! ## One write and its ledger entry -/

/-- Moving a blob into a history directory adds what it opens to. -/
theorem opened_insert (config : Config) {state after : State} {tier : Tier} {path : String}
    {now : Nat} {blob body : Bytes} (hid : after.vault.id = state.vault.id)
    (hhistory : after.blobs.history tier (config.pathName path) =
      (state.blobs.history tier (config.pathName path)).insert
        (BlobStore.entryName (state.blobs.history tier (config.pathName path)) now) blob)
    (hopen : openBlob config.aead config.keys state.vault.id path blob = .ok body) :
    (opened config after tier path).Perm (opened config state tier path ++ [.ok body]) := by
  unfold opened
  rw [hhistory, hid]
  have hperm := (state.blobs.history tier (config.pathName path)).toList_insert_perm_of_new _ blob
    (BlobStore.entryName_free (state.blobs.history tier (config.pathName path)) now)
  refine (hperm.map _).trans ?_
  rw [List.map_cons, hopen]
  exact (List.perm_append_singleton _ _).symm

theorem Agrees.put {config : Config} (haead : config.aead.Correct) {path : String}
    {ledger : Ledger} {state : State} (hagrees : Agrees config path ledger state)
    (params : PutParams) (body : Bytes) (contentHash : String) (now : Nat) (nonce : Nonce) :
    Agrees config path (ledger.record (.put contentHash body))
      { vault := state.vault.upsertEntry path
          (putEntry params contentHash state.vault.files[path]? now body.length) now
        blobs := (state.blobs.replaceLive none (config.pathName path)
          (sealBlob config.aead config.keys nonce state.vault.id path body)
          (state.vault.files[path]?.any fun entry => !entry.deleted) now).2 } := by
  obtain ⟨hcurrent, hversions, htrash⟩ := hagrees
  have hopen := openBlob_sealBlob haead config.keys nonce state.vault.id path body
  cases hledger : ledger.current with
  | none =>
      -- nothing live: the put archives nothing
      rw [hledger] at hcurrent
      obtain ⟨hgone, hlive⟩ := hcurrent
      have hnone : (state.vault.files[path]?.any fun entry => !entry.deleted) = false := by
        cases hrow : state.vault.files[path]? with
        | none => rfl
        | some row =>
            rw [hrow] at hgone
            cases hdeleted : row.deleted with
            | true => simp [hdeleted]
            | false => simp [version, hdeleted] at hgone
      simp only [hnone, BlobStore.replaceLive, Bool.false_eq_true, ↓reduceIte,
        state.blobs.putLive_of_no_fault none _ _ (by simp)]
      refine ⟨?_, ?_, ?_⟩
      · exact ⟨_, _, Std.ExtTreeMap.getElem?_insert_self, rfl, rfl, rfl,
          BlobStore.setLive_live_self _ _ _, hopen⟩
      · simpa [Ledger.record, hledger, opened, Vault.upsertEntry] using hversions
      · simpa [Ledger.record, opened, Vault.upsertEntry] using htrash
  | some content =>
      obtain ⟨hash, old⟩ := content
      rw [hledger] at hcurrent
      obtain ⟨entry, blob, hrow, hdeleted, _, _, hlive, hold⟩ := hcurrent
      have hsome : (state.vault.files[path]?.any fun entry => !entry.deleted) = true := by
        simp [hrow, hdeleted]
      simp only [hsome, BlobStore.replaceLive, ↓reduceIte]
      rw [state.blobs.moveLiveReturning_of_no_fault none .versions _ now blob hlive (by simp)]
      simp only
      rw [BlobStore.putLive_of_no_fault _ none _ _ (by simp)]
      refine ⟨?_, ?_, ?_⟩
      · exact ⟨_, _, Std.ExtTreeMap.getElem?_insert_self, rfl, rfl, rfl,
          BlobStore.setLive_live_self _ _ _, hopen⟩
      · simp only [Ledger.record, hledger, Option.map_some, Option.toList_some, List.map_append,
          List.map_cons, List.map_nil]
        refine List.Perm.trans ?_ (hversions.append_right _)
        refine @opened_insert config state _ .versions path now blob old rfl ?_ hold
        rw [BlobStore.setLive_history, BlobStore.setHistory_history_self]
      · unfold opened at htrash ⊢
        simp only [Ledger.record]
        rw [BlobStore.setLive_history, BlobStore.setHistory_history_of_ne _ _ _ _ _ _ (by simp)]
        exact htrash

theorem Agrees.delete {config : Config} {path : String} {ledger : Ledger} {state : State}
    (hagrees : Agrees config path ledger state) (now : Nat) :
    Agrees config path (ledger.record .delete)
      { vault := state.vault.upsertEntry path (tombstone state.vault.files[path]? now) now
        blobs := (state.blobs.trashLive none (config.pathName path) now).2 } := by
  obtain ⟨hcurrent, hversions, htrash⟩ := hagrees
  have hgone : version (state.vault.upsertEntry path
      (tombstone state.vault.files[path]? now) now).files[path]? = .gone := by
    simp [Vault.upsertEntry, version, tombstone]
  cases hledger : ledger.current with
  | none =>
      rw [hledger] at hcurrent
      obtain ⟨_, hlive⟩ := hcurrent
      simp only [BlobStore.trashLive,
        state.blobs.moveLiveReturning_of_empty none .trash _ now hlive]
      refine ⟨⟨hgone, hlive⟩, ?_, ?_⟩
      · simpa [Ledger.record, opened, Vault.upsertEntry] using hversions
      · simpa [Ledger.record, hledger, opened, Vault.upsertEntry] using htrash
  | some content =>
      obtain ⟨hash, old⟩ := content
      rw [hledger] at hcurrent
      obtain ⟨entry, blob, hrow, hdeleted, _, _, hlive, hold⟩ := hcurrent
      simp only [BlobStore.trashLive]
      rw [state.blobs.moveLiveReturning_of_no_fault none .trash _ now blob hlive (by simp)]
      refine ⟨⟨hgone, by simp⟩, ?_, ?_⟩
      · unfold opened at hversions ⊢
        simp only [Ledger.record]
        rw [BlobStore.setHistory_history_of_ne _ _ _ _ _ _ (by simp)]
        exact hversions
      · simp only [Ledger.record, hledger, Option.map_some, Option.toList_some, List.map_append,
          List.map_cons, List.map_nil]
        refine List.Perm.trans ?_ (htrash.append_right _)
        refine @opened_insert config state _ .trash path now blob old rfl ?_ hold
        rw [BlobStore.setHistory_history_self]

/-- What an answered call adds to the ledger of its path. -/
def Ledger.note (ledger : Ledger) (write : Option Write) : Ledger :=
  write.elim ledger ledger.record

/-- A fault-free write of a path records itself in the path's ledger. -/
theorem Agrees.serve {config : Config} (haead : config.aead.Correct) {path : String}
    {ledger : Ledger} {state : State} (hagrees : Agrees config path ledger state) (call : Call)
    (hfault : call.fault = none) (hpath : call.path = path) :
    Agrees config path (ledger.note (call.write (call.serve config state).1))
      (call.serve config state).2 := by
  cases hrequest : call.request with
  | put params body =>
      have hsame : params.path = path := by
        rw [← hpath]
        simp [Call.path, hrequest, Request.path]
      rcases serve_put config call state hfault hrequest with
        ⟨error, _, hserve⟩ | ⟨contentHash, hcheck, hgate⟩
      · rw [hserve]
        exact hagrees
      · split at hgate
        next => rw [hgate]; exact hagrees
        next => rw [hgate]; exact hagrees
        next =>
          rw [hgate]
          simp only [Call.write, hrequest, checkPut_ok_hash hcheck, Option.map_some, Ledger.note,
            Option.elim_some, Call.moveBlob, hfault, hsame]
          exact hagrees.put haead params body contentHash call.now call.nonce
  | delete target parentHash =>
      have hsame : target = path := by
        rw [← hpath]
        simp [Call.path, hrequest, Request.path]
      rcases serve_delete config call state hfault hrequest with
        ⟨error, _, hserve⟩ | ⟨_, hgate⟩
      · rw [hserve]
        exact hagrees
      · split at hgate
        next => rw [hgate]; exact hagrees
        next =>
          rw [hgate]
          simp only [Call.write, hrequest, Ledger.note, Option.elim_some, Call.moveBlob, hfault,
            hsame]
          exact hagrees.delete call.now

/-- A write of another path leaves the ledger of a path alone. -/
theorem Agrees.serve_of_ne {config : Config} (hname : Function.Injective config.pathName)
    {path : String} {ledger : Ledger} {state : State}
    (hagrees : Agrees config path ledger state) (call : Call) (hfault : call.fault = none)
    (hne : call.path ≠ path) : Agrees config path ledger (call.serve config state).2 := by
  have hother : config.pathName path ≠ config.pathName call.path := by
    intro heq
    exact hne (hname heq).symm
  refine hagrees.congr ?_ (serve_files_of_ne config call state hne) ?_
  · rcases serve_vault config call state with ⟨entry, _, hvault⟩ | ⟨_, hvault⟩ <;> rw [hvault]
    rfl
  · cases hrequest : call.request with
    | put params body =>
        rcases serve_put config call state hfault hrequest with
          ⟨error, _, hserve⟩ | ⟨contentHash, hcheck, hgate⟩
        · rw [hserve]
          exact .refl _ _
        · split at hgate
          next => rw [hgate]; exact .refl _ _
          next => rw [hgate]; exact .refl _ _
          next =>
            rw [hgate]
            exact call.moveBlob_sameAt config _ state hother
    | delete target parentHash =>
        rcases serve_delete config call state hfault hrequest with
          ⟨error, _, hserve⟩ | ⟨_, hgate⟩
        · rw [hserve]
          exact .refl _ _
        · split at hgate
          next => rw [hgate]; exact .refl _ _
          next =>
            rw [hgate]
            exact call.moveBlob_sameAt config _ state hother

/-! ## Whole runs -/

theorem writes_concat (path : String) (log : List (Call × Except ApiError Outcome)) (call : Call)
    (answer : Except ApiError Outcome) :
    writes path (log ++ [(call, answer)]) =
      writes path log ++ (if call.path = path then call.write answer else none).toList := by
  unfold writes
  rw [List.filterMap_append]
  cases hwrite : (if call.path = path then call.write answer else none) with
  | none => simp [hwrite]
  | some write => simp [hwrite]

/-- A serial execution of fault-free calls leaves what the ledgers say. -/
theorem settled_agrees (config : Config) (haead : config.aead.Correct)
    (hname : Function.Injective config.pathName) {start : State} {path : String}
    (hstart : Agrees config path .empty start) {log : List (Call × Except ApiError Outcome)}
    (hanswered : Answered config start log)
    (hfault : ∀ finished ∈ log, finished.1.fault = none) :
    Agrees config path (.ofWrites (writes path log))
      (settled config start (log.map Prod.fst)) := by
  induction log using List.reverseRecOn with
  | nil => exact hstart
  | append_singleton log finished ih =>
      obtain ⟨call, answer⟩ := finished
      have hinit : Answered config start log := by
        intro before other reply after hlog
        exact hanswered before other reply (after ++ [(call, answer)]) (by simp [hlog])
      have hagrees := ih hinit fun finished hmem => hfault finished (by simp [hmem])
      have hnone : call.fault = none := hfault (call, answer) (by simp)
      have hanswer := hanswered log call answer [] rfl
      rw [List.map_append, settled_append, writes_concat]
      by_cases hpath : call.path = path
      · have hnext := hagrees.serve haead call hnone hpath
        rw [← hanswer] at hnext
        rw [if_pos hpath]
        cases hwrite : call.write answer with
        | none =>
            rw [hwrite] at hnext
            simpa [Ledger.note] using hnext
        | some write =>
            rw [hwrite] at hnext
            simpa [Ledger.note, Ledger.ofWrites_concat] using hnext
      · rw [if_neg hpath]
        simpa using hagrees.serve_of_ne hname call hnone hpath

theorem empty_agrees (config : Config) {start : State} (hfiles : start.vault.files = ∅)
    (hblobs : start.blobs = .empty) (path : String) : Agrees config path .empty start := by
  refine ⟨⟨?_, ?_⟩, ?_, ?_⟩
  · simp [hfiles, version]
  · simp [hblobs, BlobStore.empty]
  · simp [opened, hblobs, BlobStore.empty, Ledger.empty]
  · simp [opened, hblobs, BlobStore.empty, Ledger.empty]

/-- A path has a live blob exactly when its row is live. -/
theorem Agrees.live_iff {config : Config} {path : String} {ledger : Ledger} {state : State}
    (hagrees : Agrees config path ledger state) :
    (state.blobs.live (config.pathName path)).isSome = true ↔
      ∃ entry, state.vault.files[path]? = some entry ∧ entry.deleted = false := by
  have hcurrent := hagrees.current
  cases hledger : ledger.current with
  | none =>
      rw [hledger] at hcurrent
      obtain ⟨hgone, hlive⟩ := hcurrent
      rw [hlive]
      refine ⟨by simp, ?_⟩
      rintro ⟨entry, hrow, hdeleted⟩
      simp [hrow, version, hdeleted] at hgone
  | some content =>
      rw [hledger] at hcurrent
      obtain ⟨entry, blob, hrow, hdeleted, _, _, hlive, _⟩ := hcurrent
      rw [hlive]
      exact ⟨fun _ => ⟨entry, hrow, hdeleted⟩, fun _ => rfl⟩

/-- From an empty vault, in every interleaving of fault-free writes: a path no
write of which sits between its blob change and its commit has a live blob
exactly when its row is live, row and blobs are those of the ledger of its
finished writes, and that ledger has every content put there exactly once. -/
theorem rows_and_blobs_agree (config : Config) (haead : config.aead.Correct)
    (hname : Function.Injective config.pathName) {start : State}
    (hfiles : start.vault.files = ∅) (hblobs : start.blobs = .empty) {board : Board}
    (hreach : Reachable config start board)
    (hfault : ∀ finished ∈ board.log, finished.1.fault = none) (path : String)
    (hidle : ∀ call undo entry, board.holder = some (call, .moved undo entry) →
      call.path ≠ path) :
    ((board.shared.blobs.live (config.pathName path)).isSome = true ↔
      ∃ entry, board.shared.vault.files[path]? = some entry ∧ entry.deleted = false) ∧
    Agrees config path (.ofWrites (writes path board.log)) board.shared ∧
    (Ledger.ofWrites (writes path board.log)).bodies.Perm
      ((writes path board.log).filterMap Write.body) := by
  obtain ⟨state, hserial, hholder⟩ := Critical.explained_of_reachable (machine config) hreach
  obtain ⟨rfl, hanswered⟩ := serial_settled hserial
  have hsettled := settled_agrees config haead hname
    (empty_agrees config hfiles hblobs path) hanswered hfault
  have hagrees : Agrees config path (.ofWrites (writes path board.log)) board.shared := by
    cases hsome : board.holder with
    | none =>
        rw [hsome] at hholder
        exact hholder ▸ hsettled
    | some held =>
        obtain ⟨call, stage⟩ := held
        rw [hsome] at hholder
        rcases partial_cases hholder with ⟨_, hsame⟩ | ⟨_, _, _, hsame, _⟩ |
          ⟨current, undo, entry, blobs, rfl, hsame, _, hmove⟩
        · exact hsame ▸ hsettled
        · exact hsame ▸ hsettled
        · have hother : config.pathName path ≠ config.pathName call.path := by
            intro heq
            exact hidle call undo entry hsome (hname heq).symm
          have hframe := call.moveBlob_sameAt config current
            (settled config start (board.log.map Prod.fst)) hother
          rw [hmove] at hframe
          rw [hsame]
          exact hsettled.congr rfl rfl hframe
  exact ⟨hagrees.live_iff, hagrees, Ledger.ofWrites_bodies _⟩

/-- A vault with no files and no blobs. -/
def freshState : State := ⟨emptyVault, .empty⟩

def notePut (parentHash : Option String) (hash : String) (body : Bytes) : Call where
  fault := none
  now := 1
  nonce := Aead.zeroNonce
  userId := "user_1"
  request := .put ⟨"note", parentHash, some hash, none⟩ body

def noteDelete (parentHash : String) : Call where
  fault := none
  now := 1
  nonce := Aead.zeroNonce
  userId := "user_1"
  request := .delete "note" (some parentHash)

/-- Put `note`, replace it, delete it and put it again, all in one second: the
first content is a version, the second is in the trash, the third is live. -/
theorem rows_and_blobs_agree_in_fresh_vault :
    ∃ board : Board, Reachable sampleConfig freshState board ∧
      writes "note" board.log =
        [.put "h" [104, 105], .put "h1" [104], .delete, .put "h2" [105]] ∧
      Agrees sampleConfig "note" ⟨some ("h2", [105]), [[104, 105]], [[104]]⟩ board.shared := by
  have hreach := reachable_of_calls sampleConfig freshState
    [notePut none "h" [104, 105], notePut (some "h") "h1" [104], noteDelete "h1",
      notePut (some "h1") "h2" [105]]
  have hwrites : writes "note" (served sampleConfig freshState
      [notePut none "h" [104, 105], notePut (some "h") "h1" [104], noteDelete "h1",
        notePut (some "h1") "h2" [105]]) =
      [.put "h" [104, 105], .put "h1" [104], .delete, .put "h2" [105]] := by decide
  refine ⟨_, hreach, hwrites, ?_⟩
  obtain ⟨_, hagrees, _⟩ := rows_and_blobs_agree sampleConfig Aead.padded_correct
    (fun _ _ heq => heq) rfl rfl hreach (by simp [served, notePut, noteDelete]) "note" (by simp)
  simp only [hwrites] at hagrees
  exact hagrees

end ObSink.Server
