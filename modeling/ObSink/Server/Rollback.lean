import ObSink.Manifest
import ObSink.Server.Files

/-! # What a failed write leaves behind

The blob of a path changes before its row does, so a write that fails after
the blob moved has to put it back. `applyPut` and `applyDelete` do so once
`replaceLive` or `trashLive` has returned; a failure inside `replaceLive`,
after the old blob was archived, is not followed by an undo.
-/

namespace ObSink.Server

open Aead (Nonce)

/-- Each live row has its blob and each tombstoned or absent row has none. -/
structure RowsMatchBlobs (config : Config) (state : State) : Prop where
  live : ∀ path entry, state.vault.files[path]? = some entry → entry.deleted = false →
    (state.blobs.live (config.pathName path)).isSome = true
  gone : ∀ path, version state.vault.files[path]? = .gone →
    state.blobs.live (config.pathName path) = none

/-- The operations of `putLive`. -/
def FaultPoint.inPutLive : FaultPoint → Bool
  | .createLiveDir | .createTemp | .writeTemp | .syncTemp | .renameTemp => true
  | _ => false

/-- The operations of `moveLiveReturning`. -/
def FaultPoint.inMoveLive : FaultPoint → Bool
  | .createHistoryDir | .renameToHistory => true
  | _ => false

namespace BlobStore

theorem putLive_of_fault (store : BlobStore) (fault : Fault) (name : String) (sealed : Bytes)
    (hfault : fault.point.inPutLive = true) :
    store.putLive (some fault) name sealed = (.error fault.message, store) := by
  cases fault with
  | mk point message =>
      cases point <;> first | rfl | simp [FaultPoint.inPutLive] at hfault

theorem putLive_of_no_fault (store : BlobStore) (fault : Option Fault) (name : String)
    (sealed : Bytes) (hfault : ∀ f, fault = some f → f.point.inPutLive = false) :
    store.putLive fault name sealed = (.ok (), store.setLive name (some sealed)) := by
  cases fault with
  | none => rfl
  | some fault =>
      have hpoint := hfault fault rfl
      cases fault with
      | mk point message =>
          cases point <;> first | rfl | simp [FaultPoint.inPutLive] at hpoint

theorem moveLiveReturning_of_fault (store : BlobStore) (fault : Fault) (tier : Tier)
    (name : String) (now : Nat) (blob : Bytes) (hlive : store.live name = some blob)
    (hfault : fault.point.inMoveLive = true) :
    store.moveLiveReturning (some fault) tier name now = (.error fault.message, store) := by
  cases fault with
  | mk point message =>
      cases point <;> first
        | simp [moveLiveReturning, hlive, attempt, bind, Except.bind]; done
        | simp [FaultPoint.inMoveLive] at hfault

theorem moveLiveReturning_of_no_fault (store : BlobStore) (fault : Option Fault) (tier : Tier)
    (name : String) (now : Nat) (blob : Bytes) (hlive : store.live name = some blob)
    (hfault : ∀ f, fault = some f → f.point.inMoveLive = false) :
    store.moveLiveReturning fault tier name now =
      (.ok (some (entryName (store.history tier name) now)),
        (store.setLive name none).setHistory tier name
          ((store.history tier name).insert (entryName (store.history tier name) now) blob)) := by
  cases fault with
  | none => simp [moveLiveReturning, hlive, bind, Except.bind]
  | some fault =>
      have hpoint := hfault fault rfl
      cases fault with
      | mk point message =>
          cases point <;> first
            | simp [FaultPoint.inMoveLive] at hpoint; done
            | simp [moveLiveReturning, hlive, attempt, bind, Except.bind]

theorem moveLiveReturning_of_empty (store : BlobStore) (fault : Option Fault) (tier : Tier)
    (name : String) (now : Nat) (hlive : store.live name = none) :
    store.moveLiveReturning fault tier name now = (.ok none, store) := by
  simp [moveLiveReturning, hlive]

/-- A failed move leaves the store alone; the undo of a successful one
restores it, whatever was written to the live name since. -/
theorem moveLiveReturning_undo (store : BlobStore) (fault : Option Fault) (tier : Tier)
    (name : String) (now : Nat) :
    (∃ message, store.moveLiveReturning fault tier name now = (.error message, store)) ∨
    ∃ entry moved, store.moveLiveReturning fault tier name now = (.ok entry, moved) ∧
      ∀ after, undo (moved.setLive name after)
        { name, restoreFrom := entry.map fun entry => (tier, entry) } = store := by
  cases hlive : store.live name with
  | none =>
      refine Or.inr ⟨none, store, moveLiveReturning_of_empty store fault tier name now hlive, ?_⟩
      intro after
      exact undo_fresh store name after hlive
  | some blob =>
      by_cases hfault : ∃ f, fault = some f ∧ f.point.inMoveLive = true
      · obtain ⟨f, rfl, hpoint⟩ := hfault
        exact Or.inl ⟨f.message,
          moveLiveReturning_of_fault store f tier name now blob hlive hpoint⟩
      · have hnone : ∀ f, fault = some f → f.point.inMoveLive = false := by
          intro f hf
          cases hpoint : f.point.inMoveLive with
          | false => rfl
          | true => exact absurd ⟨f, hf, hpoint⟩ hfault
        refine Or.inr ⟨_, _,
          moveLiveReturning_of_no_fault store fault tier name now blob hlive hnone, ?_⟩
        intro after
        exact undo_moved store tier name now blob hlive after

theorem setLive_self (store : BlobStore) (name : String) :
    store.setLive name (store.live name) = store := by
  simp [setLive]

/-- A failed `trashLive` leaves the store alone and `undo` reverses a
successful one. -/
theorem trashLive_undo (store : BlobStore) (fault : Option Fault) (name : String) (now : Nat) :
    (∃ message, store.trashLive fault name now = (.error message, store)) ∨
    ∃ token moved, store.trashLive fault name now = (.ok token, moved) ∧
      moved.undo token = store := by
  unfold trashLive
  rcases moveLiveReturning_undo store fault .trash name now with
    ⟨message, hmove⟩ | ⟨entry, moved, hmove, hundo⟩
  · exact Or.inl ⟨message, by rw [hmove]⟩
  · refine Or.inr ⟨_, moved, by rw [hmove], ?_⟩
    have hrestore := hundo (moved.live name)
    rwa [setLive_self] at hrestore

/-- Unless the new blob cannot be written after the old one was archived, a
failed `replaceLive` leaves the store alone and `undo` reverses a successful
one. -/
theorem replaceLive_undo (store : BlobStore) (fault : Option Fault) (name : String)
    (sealed : Bytes) (archive : Bool) (now : Nat)
    (harchive : archive = false → store.live name = none)
    (hwrite : archive = true → ∀ f, fault = some f → f.point.inPutLive = false) :
    (∃ message, store.replaceLive fault name sealed archive now = (.error message, store)) ∨
    ∃ token written, store.replaceLive fault name sealed archive now = (.ok token, written) ∧
      written.undo token = store := by
  unfold replaceLive
  cases archive with
  | true =>
      simp only [↓reduceIte]
      rcases moveLiveReturning_undo store fault .versions name now with
        ⟨message, hmove⟩ | ⟨entry, moved, hmove, hundo⟩
      · exact Or.inl ⟨message, by rw [hmove]⟩
      · refine Or.inr ⟨_, _, ?_, hundo (some sealed)⟩
        rw [hmove]
        simp only [putLive_of_no_fault moved fault name sealed (hwrite rfl)]
  | false =>
      simp only [Bool.false_eq_true, ↓reduceIte]
      by_cases hfault : ∃ f, fault = some f ∧ f.point.inPutLive = true
      · obtain ⟨f, rfl, hpoint⟩ := hfault
        exact Or.inl ⟨f.message, by rw [putLive_of_fault store f name sealed hpoint]⟩
      · have hnone : ∀ f, fault = some f → f.point.inPutLive = false := by
          intro f hf
          cases hpoint : f.point.inPutLive with
          | false => rfl
          | true => exact absurd ⟨f, hf, hpoint⟩ hfault
        refine Or.inr ⟨_, _, ?_, undo_fresh store name (some sealed) (harchive rfl)⟩
        rw [putLive_of_no_fault store fault name sealed hnone]
        rfl

/-- When the new blob cannot be written after the old one was archived, the
path is left without a live blob. -/
theorem replaceLive_stopped (store : BlobStore) (fault : Fault) (name : String) (sealed : Bytes)
    (now : Nat) (hlive : (store.live name).isSome = true)
    (hpoint : fault.point.inPutLive = true) :
    ∃ moved, store.replaceLive (some fault) name sealed true now = (.error fault.message, moved) ∧
      moved.live name = none := by
  obtain ⟨blob, hblob⟩ := Option.isSome_iff_exists.mp hlive
  have hmove : ∀ f, some fault = some f → f.point.inMoveLive = false := by
    intro f hf
    obtain rfl := Option.some.inj hf
    cases hcase : fault.point <;> simp_all [FaultPoint.inPutLive, FaultPoint.inMoveLive]
  let dir := store.history .versions name
  refine ⟨(store.setLive name none).setHistory .versions name
    (dir.insert (entryName dir now) blob), ?_, by simp⟩
  unfold replaceLive
  simp only [↓reduceIte]
  rw [moveLiveReturning_of_no_fault store (some fault) .versions name now blob hblob hmove]
  simp only [putLive_of_fault _ fault name sealed hpoint, dir]

end BlobStore

/-- The put passed every check over a live row, and then writing the new blob
failed. -/
def ArchivedThenStopped (config : Config) (fault : Option Fault) (userId : String)
    (request : Request) (state : State) : Prop :=
  ∃ params body f contentHash entry, request = .put params body ∧
    fault = some f ∧ f.point.inPutLive = true ∧ entry.deleted = false ∧
    admitPut config fault state.vault userId params body.length =
      .ok (.write contentHash (some entry))

/-- A put that fails leaves the state alone unless the archived blob was not
followed by the new one. -/
theorem applyPut_error (config : Config) (fault : Option Fault) (now : Nat) (nonce : Nonce)
    (userId : String) (params : PutParams) (body : Bytes) (state : State)
    (hmatch : RowsMatchBlobs config state)
    (hstop : ¬ ArchivedThenStopped config fault userId (.put params body) state)
    {error : ApiError}
    (herror : (applyPut config fault now nonce userId params body state).1 = .error error) :
    (applyPut config fault now nonce userId params body state).2 = state := by
  simp only [applyPut] at herror ⊢
  split at herror
  next => rfl
  next => rfl
  next contentHash current hadmits =>
    obtain ⟨_, hcurrent, _⟩ := admitPut_write hadmits
    have harchive : (current.any fun entry => !entry.deleted) = false →
        state.blobs.live (config.pathName params.path) = none := by
      intro hnone
      apply hmatch.gone
      rw [← hcurrent]
      cases current with
      | none => rfl
      | some entry =>
          have hdeleted : entry.deleted = true := by simpa using hnone
          simp [version, hdeleted]
    have hwrite : (current.any fun entry => !entry.deleted) = true →
        ∀ f, fault = some f → f.point.inPutLive = false := by
      intro hlive f hf
      cases current with
      | none => simp at hlive
      | some entry =>
          cases hpoint : f.point.inPutLive with
          | false => rfl
          | true =>
              refine absurd
                ⟨params, body, f, contentHash, entry, rfl, hf, hpoint, ?_, hadmits⟩ hstop
              simpa using hlive
    rcases BlobStore.replaceLive_undo state.blobs fault (config.pathName params.path)
        (sealBlob config.aead config.keys nonce state.vault.id params.path body)
        (current.any fun entry => !entry.deleted) now harchive hwrite with
      ⟨message, hreplace⟩ | ⟨token, written, hreplace, hundo⟩
    · rw [hreplace]
    · rw [hreplace] at herror ⊢
      simp only at herror ⊢
      split at herror
      next => rw [hundo]
      next => cases herror

theorem applyDelete_error (config : Config) (fault : Option Fault) (now : Nat)
    (userId path : String) (parentHash : Option String) (state : State) {error : ApiError}
    (herror : (applyDelete config fault now userId path parentHash state).1 = .error error) :
    (applyDelete config fault now userId path parentHash state).2 = state := by
  simp only [applyDelete] at herror ⊢
  split at herror
  next => rfl
  next current hadmits =>
    rcases BlobStore.trashLive_undo state.blobs fault (config.pathName path) now with
      ⟨message, htrash⟩ | ⟨token, moved, htrash, hundo⟩
    · rw [htrash]
    · rw [htrash] at herror ⊢
      simp only at herror ⊢
      split at herror
      next => rw [hundo]
      next => cases herror

/-- The defect: the path ends without a live blob, while its row stays live. -/
theorem applyRequest_stopped (config : Config) (fault : Option Fault) (now : Nat) (nonce : Nonce)
    (userId : String) (request : Request) (state : State)
    (hmatch : RowsMatchBlobs config state)
    (hstop : ArchivedThenStopped config fault userId request state) :
    ∃ error, (applyRequest config fault now nonce userId request state).1 = .error error ∧
      (applyRequest config fault now nonce userId request state).2 ≠ state := by
  obtain ⟨params, body, f, contentHash, entry, rfl, rfl, hpoint, hlive, hadmits⟩ := hstop
  obtain ⟨_, hcurrent, _⟩ := admitPut_write hadmits
  have hblob := hmatch.live params.path entry hcurrent.symm hlive
  obtain ⟨moved, hreplace, hgone⟩ := BlobStore.replaceLive_stopped state.blobs f
    (config.pathName params.path)
    (sealBlob config.aead config.keys nonce state.vault.id params.path body) now hblob hpoint
  have happly : applyRequest config (some f) now nonce userId (.put params body) state =
      (.error (.internal f.message), { state with blobs := moved }) := by
    simp only [applyRequest, applyPut, hadmits, Option.any_some, hlive, Bool.not_false, hreplace]
  refine ⟨.internal f.message, by rw [happly], ?_⟩
  intro hsame
  rw [happly] at hsame
  have hstore : moved = state.blobs := congrArg State.blobs hsame
  rw [← hstore, hgone] at hblob
  cases hblob

/-- Every failure of a write leaves rows, revision, live blobs and history as
they were, exactly when the failure is not one of writing the new blob after
the old one was archived. -/
theorem failed_write_changes_nothing_iff (config : Config) (fault : Option Fault) (now : Nat)
    (nonce : Nonce) (userId : String) (request : Request) (state : State)
    (hmatch : RowsMatchBlobs config state) :
    (∀ error, (applyRequest config fault now nonce userId request state).1 = .error error →
      (applyRequest config fault now nonce userId request state).2 = state) ↔
    ¬ ArchivedThenStopped config fault userId request state := by
  constructor
  · intro hall hstop
    obtain ⟨error, herror, hchanged⟩ :=
      applyRequest_stopped config fault now nonce userId request state hmatch hstop
    exact hchanged (hall error herror)
  · intro hstop error herror
    cases request with
    | put params body =>
        exact applyPut_error config fault now nonce userId params body state hmatch hstop herror
    | delete path parentHash =>
        exact applyDelete_error config fault now userId path parentHash state herror

theorem sampleState_matches : RowsMatchBlobs sampleConfig sampleState where
  live := by
    intro path entry hentry _
    have hpath : path = "note" := by
      by_contra hne
      simp [sampleState, Vault.upsertEntry, emptyVault, Ne.symm hne] at hentry
    subst hpath
    simp [sampleState, sampleConfig]
  gone := by
    intro path hgone
    by_cases hpath : path = "note"
    · subst hpath
      simp [sampleState, Vault.upsertEntry, version] at hgone
    · exact BlobStore.setLive_live_of_ne _ _ hpath

/-- An update of `note` whose commit fails leaves everything as it was. -/
theorem failed_commit_changes_nothing_in_sample :
    RowsMatchBlobs sampleConfig sampleState ∧
    ∀ error,
      (applyRequest sampleConfig (some ⟨.commit, "connection reset"⟩) 2 Aead.zeroNonce "user_1"
        (.put ⟨"note", some "h", some "h1", none⟩ [104]) sampleState).1 = .error error →
      (applyRequest sampleConfig (some ⟨.commit, "connection reset"⟩) 2 Aead.zeroNonce "user_1"
        (.put ⟨"note", some "h", some "h1", none⟩ [104]) sampleState).2 = sampleState := by
  refine ⟨sampleState_matches, (failed_write_changes_nothing_iff sampleConfig _ 2 Aead.zeroNonce
    "user_1" _ sampleState sampleState_matches).mpr ?_⟩
  rintro ⟨params, body, f, contentHash, entry, _, hfault, hpoint, _⟩
  obtain rfl := Option.some.inj hfault
  simp [FaultPoint.inPutLive] at hpoint

/-- The same update with a full disk: the row of `note` stays live, its blob
is gone from the live directory and sits among the versions. -/
theorem full_disk_takes_live_blob_of_sample :
    RowsMatchBlobs sampleConfig sampleState ∧
    ¬ ∀ error,
      (applyRequest sampleConfig (some ⟨.writeTemp, "no space left on device"⟩) 2 Aead.zeroNonce
        "user_1" (.put ⟨"note", some "h", some "h1", none⟩ [104]) sampleState).1 = .error error →
      (applyRequest sampleConfig (some ⟨.writeTemp, "no space left on device"⟩) 2 Aead.zeroNonce
        "user_1" (.put ⟨"note", some "h", some "h1", none⟩ [104]) sampleState).2 =
          sampleState := by
  refine ⟨sampleState_matches, ?_⟩
  intro hall
  obtain ⟨error, herror, hchanged⟩ := applyRequest_stopped sampleConfig
    (some ⟨.writeTemp, "no space left on device"⟩) 2 Aead.zeroNonce "user_1"
    (.put ⟨"note", some "h", some "h1", none⟩ [104]) sampleState sampleState_matches
    ⟨_, _, _, "h1", { hash := "h", modified := 1, size := 2 }, rfl, rfl, rfl, rfl, by decide⟩
  exact hchanged (hall error herror)

end ObSink.Server
