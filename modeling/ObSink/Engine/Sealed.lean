import ObSink.Engine.Edits

/-! # The hash that goes with a content

An upload carries a hash that was computed when the file was walked, when its
conflict was found, or when its copy had been written; the content is read and
encrypted when its batch is put together. What has to stay as it was in between,
and only until then.
-/

namespace ObSink.Engine

open Prog (Setting Holds Within Reaches perform holds_bind holds_pure within_bind within_pure
  within_perform)

/-- The hash is that of the content sent. -/
def RightPut (crypto : Crypto) (contentHash : String) (content : Bytes) : Prop :=
  ∃ plaintext, crypto.decrypt content = .ok plaintext ∧ contentHash = crypto.contentHmac plaintext

/-- Every put of the path has the hash of its content. -/
def PutsMatch (crypto : Crypto) (path : String) (_before : World) (effect : Effect)
    (_reply : effect.Reply) (_after : World) : Prop :=
  ∀ parentHash contentHash content, effect = .applyOp (.put path parentHash contentHash content) →
    RightPut crypto contentHash content

theorem putsMatch_of_ne {crypto : Crypto} {path : String} {effect : Effect}
    (hne : ∀ op, effect ≠ .applyOp op) (before : World) (reply : effect.Reply) (after : World) :
    PutsMatch crypto path before effect reply after :=
  fun _ _ _ heq => absurd heq (hne _)

/-- What a put made of the action says the hash is. -/
def sentHash (action : SyncAction) : String :=
  (action.localEntry.map FileEntry.hash).getD ""

/-- A hash that was recorded is that of the file there now, if there is one. -/
def HashStands (crypto : Crypto) (file? : Option StoredFile) (hash : String) : Prop :=
  ∀ file, file? = some file → hash = crypto.contentHmac file.content

variable {context : Context} {path : String}

/-! ## Batches -/

/-- The uploads of the path have the hash of the file. -/
def HashesStand (crypto : Crypto) (path : String) (file? : Option StoredFile)
    (uploads : List SyncAction) : Prop :=
  ∀ action ∈ uploads, action.path = path → action.kind = .upload →
    HashStands crypto file? (sentHash action)

/-- An operation that is right if it is a put of the path. -/
def RightOp (crypto : Crypto) (path : String) (op : BatchOp) : Prop :=
  ∀ parentHash contentHash content, op = .put path parentHash contentHash content →
    RightPut crypto contentHash content

/-- How often the file at the path is read for the uploads. -/
def dueReads (path : String) (uploads : List SyncAction) : Nat :=
  (uploads.map fun action =>
    if action.kind = .upload then (Effect.sealFile action.path).reads path else 0).sum

theorem dueReads_cons (action : SyncAction) (rest : List SyncAction) :
    dueReads path (action :: rest) =
      (if action.kind = .upload then (Effect.sealFile action.path).reads path else 0) +
        dueReads path rest := by
  rw [dueReads, List.map_cons, List.sum_cons, dueReads]

theorem dueReads_append (first second : List SyncAction) :
    dueReads path (first ++ second) = dueReads path first + dueReads path second := by
  rw [dueReads, List.map_append, List.sum_append, dueReads, dueReads]

theorem Effect.Sends.leaves {ops : List BatchOp} {effect : Effect} (hsends : effect.Sends ops) :
    ¬ effect.Touches path ∧ effect.reads path = 0 := by
  refine ⟨(hsends.seals []).uploads.untouched, ?_⟩
  cases effect with
  | sealFile other => exact hsends.elim
  | _ => rfl

/-- Right operations are sent as they are, however often. -/
theorem holds_sends_right {crypto : Crypto} {ops : List BatchOp}
    (hright : ∀ op ∈ ops, RightOp crypto path op) {α : Type} {prog : Eff α} {post : α → Prop}
    (hsends : Within (Effect.Sends ops) post prog) {due reads : Nat} {file? : Option StoredFile}
    {state : World × Nat} (hawaits : Awaits path due file? reads state) :
    Holds (beside context path due (PutsMatch crypto path))
      (fun value after => Awaits path due file? reads after ∧ post value) prog state := by
  apply holds_untouched (fun _ hsends => hsends.leaves) _ hsends hawaits
  intro effect hsends before reply after parentHash contentHash content heq
  subst heq
  exact hright _ hsends parentHash contentHash content rfl

/-- What a file is sealed as. -/
theorem sealed_cases {before after : World} {content : Bytes}
    (hperform : Performs context (fun _ => True) (.sealFile path) before (.ok content) after) :
    ∃ file nonce, before.device.folder[path]? = some file ∧
      content = context.crypto.encrypt nonce file.content := by
  obtain ⟨env, _, hhandle⟩ := hperform
  simp only [handle] at hhandle
  split at hhandle
  next file hfile =>
    have hreply := congrArg Prod.fst hhandle
    unfold Env.onDevice at hreply
    split at hreply
    next => cases hreply
    next => exact ⟨file, env.nonce, hfile, (Except.ok.inj hreply).symm⟩
  next => cases congrArg Prod.fst hhandle

/-- A put of what was read while the file is as it was hashed. -/
theorem rightOp_of_sealed (hideal : context.crypto.Ideal) {action : SyncAction} {content : Bytes}
    {before after : World} (hash : String)
    (hperform : Performs context (fun _ => True) (.sealFile action.path) before (.ok content) after)
    (hstands : action.path = path →
      HashStands context.crypto before.device.folder[path]? hash) :
    RightOp context.crypto path (.put action.path (parentHash action) hash content) := by
  intro parentHash contentHash sealed heq
  obtain ⟨hpath, rfl, rfl, rfl⟩ := BatchOp.put.inj heq
  subst hpath
  obtain ⟨file, nonce, hfile, rfl⟩ := sealed_cases hperform
  exact ⟨file.content, hideal.decrypt_encrypt _ _, hstands rfl file hfile⟩

/-- The members of a batch, read while the file is as it was hashed. -/
theorem holds_prepareBatch_right (hideal : context.crypto.Ideal) {actions : List SyncAction}
    {due reads : Nat} {file? : Option StoredFile}
    (hhashes : HashesStand context.crypto path file? actions)
    (hdue : reads + dueReads path actions ≤ due) (outcome : UploadOutcome) {state : World × Nat}
    (hawaits : Awaits path due file? reads state) :
    Holds (beside context path due (PutsMatch context.crypto path))
      (fun result after => Awaits path due file? (reads + dueReads path actions) after ∧
        ∀ op ∈ result.1.map Prod.snd, RightOp context.crypto path op)
      (prepareBatch actions outcome) state := by
  induction actions generalizing outcome reads state with
  | nil => exact ⟨hawaits, by simp⟩
  | cons action rest ih =>
      have hrest : HashesStand context.crypto path file? rest :=
        fun later hlater => hhashes later (List.mem_cons_of_mem _ hlater)
      rw [dueReads_cons] at hdue ⊢
      rw [prepareBatch, holds_bind]
      cases hkind : action.kind with
      | download =>
          simp only [hkind, reduceCtorEq, if_false, Nat.zero_add] at hdue
          simp only [prepareBatchOp, hkind, holds_pure, reduceCtorEq, if_false, Nat.zero_add]
          exact ih hrest hdue _ hawaits
      | deleteLocal =>
          simp only [hkind, reduceCtorEq, if_false, Nat.zero_add] at hdue
          simp only [prepareBatchOp, hkind, holds_pure, reduceCtorEq, if_false, Nat.zero_add]
          exact ih hrest hdue _ hawaits
      | deleteRemote =>
          simp only [hkind, reduceCtorEq, if_false, Nat.zero_add] at hdue
          simp only [prepareBatchOp, hkind, holds_pure, holds_bind, reduceCtorEq, if_false,
            Nat.zero_add]
          apply (ih hrest hdue _ hawaits).mono
          intro result after hresult
          refine ⟨hresult.1, ?_⟩
          intro op hop
          rcases List.mem_cons.mp hop with rfl | hlater
          · intro parentHash contentHash content heq
            cases heq
          · exact hresult.2 op hlater
      | upload =>
          simp only [hkind, if_true] at hdue
          simp only [prepareBatchOp, hkind, holds_bind, if_true]
          -- the one read of the path: the file still stands as it was hashed
          rintro before ⟨hsame, hrely⟩ reply after ⟨hperform, hcount⟩
          have hbefore := hawaits.rely hsame hrely
          have hafter := hbefore.untouched
            (show ¬ (Effect.sealFile action.path).Touches path from id) hperform hcount
          rw [← Nat.add_assoc] at hdue ⊢
          refine ⟨putsMatch_of_ne (by simp) before.1 reply after.1, ?_⟩
          cases reply with
          | error error => exact ih hrest hdue _ hafter
          | ok content =>
              change Holds _ _ (prepareBatch rest outcome >>= _) after
              rw [holds_bind]
              apply (ih hrest hdue _ hafter).mono
              intro result later hresult
              refine ⟨hresult.1, ?_⟩
              intro op hop
              rcases List.mem_cons.mp hop with rfl | hlater
              · refine rightOp_of_sealed hideal _ hperform ?_
                intro hpath
                have hread : (Effect.sealFile action.path).reads path = 1 := if_pos hpath
                have hstanding : before.1.device.folder[path]? = file? :=
                  hbefore.standing (by omega)
                rw [hstanding]
                exact hhashes action List.mem_cons_self hpath hkind
              · exact hresult.2 op hlater

/-- One batch, or none. -/
theorem holds_runBatch_right (hideal : context.crypto.Ideal) {actions : List SyncAction}
    {due reads : Nat} {file? : Option StoredFile}
    (hhashes : HashesStand context.crypto path file? actions)
    (hdue : reads + dueReads path actions ≤ due) (outcome : UploadOutcome) {state : World × Nat}
    (hawaits : Awaits path due file? reads state) :
    Holds (beside context path due (PutsMatch context.crypto path))
      (fun _ after => Awaits path due file? (reads + dueReads path actions) after)
      (runBatch actions outcome) state := by
  rw [runBatch, holds_bind]
  apply (holds_prepareBatch_right hideal hhashes hdue outcome hawaits).mono
  intro prepared after hprepared
  obtain ⟨members, accounted⟩ := prepared
  simp only
  split
  next => exact hprepared.1
  next =>
    rw [holds_bind]
    apply (holds_sends_right hprepared.2 (batch_sends _ maxAttempts) hprepared.1).mono
    intro answer later hlater
    cases answer with
    | error error => exact hlater.1
    | ok results => exact hlater.1

/-- All batches, each read while the file is as it was hashed. -/
theorem holds_runUploads_right (hideal : context.crypto.Ideal) {uploads : List SyncAction}
    {due reads : Nat} {file? : Option StoredFile}
    (hhashes : HashesStand context.crypto path file? uploads)
    (hdue : reads + dueReads path uploads ≤ due) (held : List String) {state : World × Nat}
    (hawaits : Awaits path due file? reads state) :
    Holds (beside context path due (PutsMatch context.crypto path)) (fun _ _ => True)
      (runUploads uploads held) state := by
  have hloop : ∀ (groups : List (List SyncAction)) (outcome : UploadOutcome) (reads : Nat)
      (state : World × Nat), (∀ actions ∈ groups, actions ⊆ uploads) →
      reads + dueReads path groups.flatten ≤ due → Awaits path due file? reads state →
      Holds (beside context path due (PutsMatch context.crypto path)) (fun _ _ => True)
        (runBatches groups outcome) state := by
    intro groups
    induction groups with
    | nil => exact fun _ _ _ _ _ _ => trivial
    | cons actions rest ih =>
        intro outcome reads state hgroups hdue hawaits
        rw [List.flatten_cons, dueReads_append, ← Nat.add_assoc] at hdue
        have hactions : HashesStand context.crypto path file? actions :=
          fun action haction => hhashes action (hgroups actions List.mem_cons_self haction)
        rw [runBatches, holds_bind]
        apply (holds_runBatch_right hideal hactions (Nat.le_of_add_right_le hdue) outcome
          hawaits).mono
        intro result after hafter
        obtain ⟨done, stop⟩ := result
        cases stop with
        | true => trivial
        | false =>
            refine ih done _ after ?_ hdue hafter
            intro later hlater
            exact hgroups later (List.mem_cons_of_mem _ hlater)
  have hflatten : (batches uploads).flatten = uploads := by
    rw [batches, ← List.flatMap_def]
    exact chunkUploads_flatMap uploads _
  exact hloop (batches uploads) ⟨0, [], [], held⟩ reads state batches_subset (by rwa [hflatten])
    hawaits

/-! ## Resolutions -/

/-- What is to be uploaded of the path, by actions or by answers to conflicts, was
recorded of the file there, which no answer overwrites; a copy that goes to the
path is the last thing written there. -/
structure Unmixed (crypto : Crypto) (resolutions : List ConflictResolution) (path : String)
    (conflicts : List Conflict) (uploads : List SyncAction) (file? : Option StoredFile) : Prop where
  hashed : HashesStand crypto path file? uploads
  kept : ∀ conflict ∈ conflicts, KeepsLocal resolutions path conflict →
    HashStands crypto file? conflict.localEntry.hash
  apart : (∃ action ∈ uploads, action.path = path ∧ action.kind = .upload) ∨
      (∃ conflict ∈ conflicts, KeepsLocal resolutions path conflict) →
    ∀ conflict ∈ conflicts, ¬ Overwrites resolutions path conflict
  last : conflicts.Pairwise fun first later =>
    CopiesTo resolutions path first → ¬ Overwrites resolutions path later

section Resolutions

variable {crypto : Crypto} {resolutions : List ConflictResolution} {conflict : Conflict}
  {rest : List Conflict} {uploads : List SyncAction} {file? : Option StoredFile}

/-- The answer to the first conflict uploads nothing and writes nothing here. -/
theorem Unmixed.skip (hunmixed : Unmixed crypto resolutions path (conflict :: rest) uploads file?) :
    Unmixed crypto resolutions path rest uploads file? where
  hashed := hunmixed.hashed
  kept later hlater := hunmixed.kept later (List.mem_cons_of_mem _ hlater)
  apart hany later hlater := by
    apply hunmixed.apart _ later (List.mem_cons_of_mem _ hlater)
    exact hany.imp_right fun ⟨kept, hkept, hkeeps⟩ => ⟨kept, List.mem_cons_of_mem _ hkept, hkeeps⟩
  last := (List.pairwise_cons.mp hunmixed.last).2

/-- The answer to the first conflict overwrites the file: nothing of the path is
to be uploaded, whatever the file is now. -/
theorem Unmixed.overwritten
    (hunmixed : Unmixed crypto resolutions path (conflict :: rest) uploads file?)
    (hover : Overwrites resolutions path conflict) (next? : Option StoredFile) :
    Unmixed crypto resolutions path rest uploads next? := by
  have hnone : ¬ ((∃ action ∈ uploads, action.path = path ∧ action.kind = .upload) ∨
      ∃ kept ∈ conflict :: rest, KeepsLocal resolutions path kept) :=
    fun hany => hunmixed.apart hany conflict List.mem_cons_self hover
  rw [not_or] at hnone
  refine ⟨?_, ?_, hunmixed.skip.apart, hunmixed.skip.last⟩
  · intro action haction hpath hkind
    exact absurd ⟨action, haction, hpath, hkind⟩ hnone.1
  · intro later hlater hkeeps
    exact absurd ⟨later, List.mem_cons_of_mem _ hlater, hkeeps⟩ hnone.2

/-- The local side is uploaded. -/
theorem Unmixed.upload
    (hunmixed : Unmixed crypto resolutions path (conflict :: rest) uploads file?)
    (hchoice : choiceOf resolutions conflict = some .keepLocal ∨
      choiceOf resolutions conflict = some .keepBoth) :
    Unmixed crypto resolutions path rest (uploads ++ [conflictToUpload conflict]) file? := by
  have hkeeps : (conflictToUpload conflict).path = path →
      (conflictToUpload conflict).kind = .upload → KeepsLocal resolutions path conflict := by
    intro hpath hkind
    refine ⟨hpath, ?_, hchoice⟩
    simp only [conflictToUpload] at hkind
    split at hkind
    next => cases hkind
    next hlive => simpa using hlive
  refine ⟨?_, hunmixed.skip.kept, ?_, hunmixed.skip.last⟩
  · intro action haction hpath hkind
    rcases List.mem_append.mp haction with hold | hnew
    · exact hunmixed.hashed action hold hpath hkind
    · obtain rfl := List.mem_singleton.mp hnew
      exact hunmixed.kept conflict List.mem_cons_self (hkeeps hpath hkind)
  · intro hany later hlater
    rcases hany with ⟨action, haction, hpath, hkind⟩ | hkept
    · apply hunmixed.apart _ later (List.mem_cons_of_mem _ hlater)
      rcases List.mem_append.mp haction with hold | hnew
      · exact Or.inl ⟨action, hold, hpath, hkind⟩
      · obtain rfl := List.mem_singleton.mp hnew
        exact Or.inr ⟨conflict, List.mem_cons_self, hkeeps hpath hkind⟩
    · exact hunmixed.skip.apart (Or.inr hkept) later hlater

/-- The copy, as it was read back, is uploaded. -/
theorem Unmixed.copied {file : StoredFile}
    (hunmixed : Unmixed crypto resolutions path (conflict :: rest) uploads file?)
    (hcopies : CopiesTo resolutions path conflict) :
    Unmixed crypto resolutions path rest
      (uploads ++ [conflictToUpload conflict, copyUpload crypto path file]) (some file) := by
  have hafter := hunmixed.overwritten (Or.inr hcopies) (some file)
  have hother : (conflictToUpload conflict).path ≠ path := by
    rw [← hcopies.2]
    exact (conflictCopyPath_ne conflict.path).symm
  refine ⟨?_, hafter.kept, ?_, hafter.last⟩
  · intro action haction hpath hkind
    rcases List.mem_append.mp haction with hold | hnew
    · exact hafter.hashed action hold hpath hkind
    · rcases List.mem_cons.mp hnew with rfl | hcopy
      · exact absurd hpath hother
      · obtain rfl := List.mem_singleton.mp hcopy
        intro found hfound
        obtain rfl := Option.some.inj hfound
        rfl
  · intro _ later hlater
    exact (List.pairwise_cons.mp hunmixed.last).1 later hlater hcopies

/-- An upload of another path makes no difference. -/
theorem Unmixed.elsewhere (hunmixed : Unmixed crypto resolutions path rest uploads file?)
    {action : SyncAction} (hother : action.path ≠ path) :
    Unmixed crypto resolutions path rest (uploads ++ [action]) file? := by
  have hmine : ∀ upload ∈ uploads ++ [action], upload.path = path → upload ∈ uploads := by
    intro upload hupload hpath
    rcases List.mem_append.mp hupload with hold | hnew
    · exact hold
    · exact absurd (List.mem_singleton.mp hnew ▸ hpath) hother
  refine ⟨?_, hunmixed.kept, ?_, hunmixed.last⟩
  · intro upload hupload hpath
    exact hunmixed.hashed upload (hmine upload hupload hpath) hpath
  · intro hany
    apply hunmixed.apart
    exact hany.imp_left fun ⟨upload, hupload, hpath, hkind⟩ =>
      ⟨upload, hmine upload hupload hpath, hpath, hkind⟩

/-- An answer that uploads nothing and may have changed the file at `target`. -/
theorem Unmixed.served {target : String} {next? : Option StoredFile}
    (hunmixed : Unmixed crypto resolutions path (conflict :: rest) uploads file?)
    (hover : target = path → Overwrites resolutions path conflict)
    (hsame : target ≠ path → next? = file?) :
    Unmixed crypto resolutions path rest uploads next? := by
  by_cases hpath : target = path
  · exact hunmixed.overwritten (hover hpath) next?
  · rw [hsame hpath]
    exact hunmixed.skip

/-- The conflict's own upload, after its copy may have been written. -/
theorem Unmixed.uploadBoth {next? : Option StoredFile}
    (hunmixed : Unmixed crypto resolutions path (conflict :: rest) uploads file?)
    (hboth : choiceOf resolutions conflict = some .keepBoth)
    (hsame : conflictCopyPath conflict.path ≠ path → next? = file?) :
    Unmixed crypto resolutions path rest (uploads ++ [conflictToUpload conflict]) next? := by
  by_cases hpath : conflictCopyPath conflict.path = path
  · have hother : (conflictToUpload conflict).path ≠ path := by
      rw [← hpath]
      exact (conflictCopyPath_ne conflict.path).symm
    exact (hunmixed.overwritten (Or.inr ⟨hboth, hpath⟩) next?).elsewhere hother
  · rw [hsame hpath]
    exact hunmixed.upload (Or.inr hboth)

/-- Both are sent: the conflict's own upload, and the copy as it was read. -/
theorem Unmixed.sendBoth {file : StoredFile} {next? : Option StoredFile}
    (hunmixed : Unmixed crypto resolutions path (conflict :: rest) uploads file?)
    (hboth : choiceOf resolutions conflict = some .keepBoth)
    (hfile : conflictCopyPath conflict.path = path → next? = some file)
    (hsame : conflictCopyPath conflict.path ≠ path → next? = file?) :
    Unmixed crypto resolutions path rest
      (uploads ++ [conflictToUpload conflict,
        copyUpload crypto (conflictCopyPath conflict.path) file]) next? := by
  by_cases hpath : conflictCopyPath conflict.path = path
  · rw [hfile hpath, hpath]
    exact hunmixed.copied ⟨hboth, hpath⟩
  · have hown := (hunmixed.uploadBoth hboth hsame).elsewhere
      (show (copyUpload crypto (conflictCopyPath conflict.path) file).path ≠ path from hpath)
    rwa [List.append_assoc] at hown

end Resolutions

/-- An operation that reads, or writes at one path. -/
def Effect.Serves (target : String) : Effect → Prop
  | .getFile _ | .statFile _ => True
  | .writeFile other _ | .deleteLocalFile other => other = target
  | _ => False

theorem Effect.Serves.untouched {target : String} {effect : Effect} (hserves : effect.Serves target)
    (hother : target ≠ path) : ¬ effect.Touches path := by
  cases effect with
  | writeFile other content => exact fun htouches => hother (hserves.symm.trans htouches)
  | deleteLocalFile other => exact fun htouches => hother (hserves.symm.trans htouches)
  | _ => exact id

theorem Effect.Serves.reads {target : String} {effect : Effect} (hserves : effect.Serves target) :
    effect.reads path = 0 := by
  cases effect with
  | sealFile other => exact hserves.elim
  | _ => rfl

theorem Effect.Serves.quiet {target : String} {effect : Effect} (hserves : effect.Serves target)
    (op : BatchOp) : effect ≠ .applyOp op := by
  rintro rfl
  exact hserves

theorem fetchTo_serves (crypto : Crypto) (source target : String) :
    Within (Effect.Serves target) (fun _ => True) (fetchTo crypto source target) := by
  rw [fetchTo, within_bind, within_perform]
  refine ⟨trivial, ?_⟩
  intro reply
  cases reply with
  | error error => trivial
  | ok blob =>
      simp only [decryptAndWrite]
      split
      next => trivial
      next => exact ⟨rfl, fun _ => trivial⟩

theorem applyKeepRemote_serves (crypto : Crypto) (conflict : Conflict) :
    Within (Effect.Serves conflict.path) (fun _ => True) (applyKeepRemote crypto conflict) := by
  unfold applyKeepRemote
  split
  next => exact ⟨rfl, fun _ => trivial⟩
  next => exact fetchTo_serves crypto conflict.path conflict.path

theorem writeConflictCopy_serves (crypto : Crypto) (conflict : Conflict) :
    Within (Effect.Serves (conflictCopyPath conflict.path))
      (fun result => ∀ copy, result = .ok copy → copy = conflictCopyPath conflict.path)
      (writeConflictCopy crypto conflict) := by
  rw [writeConflictCopy, within_bind]
  apply (fetchTo_serves crypto conflict.path _).mono
  intro result _
  cases result with
  | error error =>
      intro copy hcopy
      cases hcopy
  | ok value =>
      intro copy hcopy
      exact (Except.ok.inj hcopy).symm

/-- A program that writes at one path only leaves the file at another as it is. -/
theorem holds_serves {crypto : Crypto} {target : String} {α : Type} {prog : Eff α} {post : α → Prop}
    (hwithin : Within (Effect.Serves target) post prog) {due reads : Nat}
    {file? : Option StoredFile} {state : World × Nat}
    (hawaits : Awaits path due file? reads state) :
    Holds (beside context path due (PutsMatch crypto path)) (fun value after => post value ∧
      ∃ next?, Awaits path due next? reads after ∧ (target ≠ path → next? = file?)) prog state := by
  by_cases hother : target = path
  · have hany : Holds (beside context path due (PutsMatch crypto path))
        (fun value after => after.2 = reads ∧ post value) prog state := by
      apply hwithin.holds
      · rintro before after ⟨hsame, -⟩ hcount
        exact hsame.trans hcount
      · rintro effect hserves before reply after hcount ⟨-, hread⟩
        have hafter : after.2 = reads := by rw [hread, hserves.reads, hcount, Nat.add_zero]
        exact ⟨putsMatch_of_ne hserves.quiet before.1 reply after.1, hafter⟩
      · exact hawaits.count
    apply hany.mono
    intro value after hpost
    exact ⟨hpost.2, after.1.device.folder[path]?, ⟨hpost.1, fun _ => rfl⟩,
      fun hne => absurd hother hne⟩
  · have hsame : Holds (beside context path due (PutsMatch crypto path))
        (fun value after => Awaits path due file? reads after ∧ post value) prog state :=
      holds_untouched (fun effect hserves => ⟨hserves.untouched hother, hserves.reads⟩)
        (fun effect hserves before reply after => putsMatch_of_ne hserves.quiet before reply after)
        hwithin hawaits
    apply hsame.mono
    intro value after hpost
    exact ⟨hpost.2, file?, hpost.1, fun _ => rfl⟩

/-- What was read back is what stands there, if the file is still due. -/
theorem holds_statFile {crypto : Crypto} {due reads : Nat} {file? : Option StoredFile}
    (target : String) (hdue : target = path → reads < due) {state : World × Nat}
    (hawaits : Awaits path due file? reads state) :
    Holds (beside context path due (PutsMatch crypto path)) (fun reply after =>
      Awaits path due file? reads after ∧
        ∀ file, reply = .ok file → target = path → file? = some file)
      (perform (Effect.statFile target)) state := by
  rintro before ⟨hsame, hrely⟩ reply after ⟨hperform, hcount⟩
  have hbefore := hawaits.rely hsame hrely
  refine ⟨putsMatch_of_ne (by simp) before.1 reply after.1, ?_, ?_⟩
  · exact hbefore.untouched (show ¬ (Effect.statFile target).Touches path from id) hperform hcount
  · rintro file rfl rfl
    have hstanding : before.1.device.folder[target]? = file? := hbefore.standing (hdue rfl)
    obtain ⟨env, _, hhandle⟩ := hperform
    simp only [handle] at hhandle
    split at hhandle
    next found hfound =>
      have hreply := congrArg Prod.fst hhandle
      unfold Env.onDevice at hreply
      split at hreply
      next => cases hreply
      next =>
        obtain rfl := Except.ok.inj hreply
        exact hstanding.symm.trans hfound
    next => cases congrArg Prod.fst hhandle

/-- How often the file at the path is read for what the answer to a conflict uploads. -/
def answerReads (resolutions : List ConflictResolution) (path : String)
    (conflict : Conflict) : Nat :=
  match choiceOf resolutions conflict with
  | some .keepLocal => dueReads path [conflictToUpload conflict]
  | some .keepBoth => dueReads path [conflictToUpload conflict] +
      (Effect.sealFile (conflictCopyPath conflict.path)).reads path
  | _ => 0

theorem dueReads_copyUpload (crypto : Crypto) (target : String) (file : StoredFile) :
    dueReads path [copyUpload crypto target file] = (Effect.sealFile target).reads path := by
  rw [dueReads_cons]
  rfl

/-- The answer to one conflict. -/
theorem holds_applyResolution_unmixed {crypto : Crypto} {resolutions : List ConflictResolution}
    {conflict : Conflict} {rest : List Conflict} {resolved : Resolved} {due later : Nat}
    {file? : Option StoredFile}
    (hunmixed : Unmixed crypto resolutions path (conflict :: rest) resolved.uploads file?)
    (hdue : dueReads path resolved.uploads + (answerReads resolutions path conflict + later) ≤ due)
    {state : World × Nat} (hawaits : Awaits path due file? 0 state) :
    Holds (beside context path due (PutsMatch crypto path))
      (fun result after => ∀ next, result = .ok next → ∃ next?, Awaits path due next? 0 after ∧
        Unmixed crypto resolutions path rest next.uploads next? ∧
        dueReads path next.uploads + later ≤ due)
      (applyResolution crypto resolutions resolved conflict) state := by
  unfold applyResolution
  cases hanswer : resolutionFor resolutions conflict.path with
  | none =>
      intro next hnext
      cases hnext
  | some choice =>
      have hchoice : choiceOf resolutions conflict = some (effectiveChoice choice conflict) := by
        rw [choiceOf, hanswer, Option.map_some]
      rw [answerReads, hchoice] at hdue
      simp only
      split
      next hdefer =>
        intro next hnext
        obtain rfl := Except.ok.inj hnext
        simp only [hdefer, Nat.zero_add] at hdue
        exact ⟨file?, hawaits, hunmixed.skip, hdue⟩
      -- keepLocal: one more upload is due
      next hkeep =>
        intro next hnext
        obtain rfl := Except.ok.inj hnext
        simp only [hkeep] at hdue
        refine ⟨file?, hawaits, hunmixed.upload (Or.inl (hkeep ▸ hchoice)), ?_⟩
        rwa [dueReads_append, Nat.add_assoc]
      -- keepRemote: the file is removed or written over
      next hkeep =>
        rw [holds_bind]
        simp only [hkeep, Nat.zero_add] at hdue
        apply (holds_serves (applyKeepRemote_serves crypto conflict) hawaits).mono
        rintro (error | value) after ⟨_, next?, hnext?, hsame⟩
        · intro next hnext
          cases hnext
        · intro next hnext
          obtain rfl := Except.ok.inj hnext
          have hover : conflict.path = path → Overwrites resolutions path conflict :=
            fun hpath => Or.inl ⟨hpath, hkeep ▸ hchoice⟩
          exact ⟨next?, hnext?, hunmixed.served hover hsame, hdue⟩
      -- keepBoth: the copy is written, then read for its upload
      next hkeep =>
        simp only [hkeep] at hdue
        rw [hkeep] at hchoice
        rw [holds_bind]
        apply (holds_serves (writeConflictCopy_serves crypto conflict) hawaits).mono
        rintro (error | copy) written ⟨hcopy, next?, hnext?, hsame⟩
        · intro next hnext
          cases hnext
        · obtain rfl := hcopy copy rfl
          have hread : conflictCopyPath conflict.path = path → 0 < due := by
            intro hpath
            have hone : (Effect.sealFile (conflictCopyPath conflict.path)).reads path = 1 :=
              if_pos hpath
            omega
          simp only [buildUploadActionForPath, holds_bind]
          apply (holds_statFile (conflictCopyPath conflict.path) hread hnext?).mono
          rintro (error | file) after ⟨hafter, hfile⟩
          · intro next hnext
            cases hnext
          · intro next hnext
            obtain rfl := Except.ok.inj hnext
            refine ⟨next?, hafter, hunmixed.sendBoth hchoice (hfile file rfl) hsame, ?_⟩
            change dueReads path (resolved.uploads ++ ([conflictToUpload conflict] ++
              [copyUpload crypto (conflictCopyPath conflict.path) file])) + later ≤ due
            rw [dueReads_append, dueReads_append, dueReads_copyUpload, Nat.add_assoc]
            exact hdue

theorem holds_applyResolutions_unmixed {crypto : Crypto} {resolutions : List ConflictResolution}
    {conflicts : List Conflict} {resolved : Resolved} {due : Nat} {file? : Option StoredFile}
    (hunmixed : Unmixed crypto resolutions path conflicts resolved.uploads file?)
    (hdue : dueReads path resolved.uploads +
      (conflicts.map (answerReads resolutions path)).sum ≤ due)
    {state : World × Nat} (hawaits : Awaits path due file? 0 state) :
    Holds (beside context path due (PutsMatch crypto path))
      (fun result after => ∀ final, result = .ok final → ∃ final?,
        Awaits path due final? 0 after ∧ HashesStand crypto path final? final.uploads ∧
        dueReads path final.uploads ≤ due)
      (applyResolutions crypto resolutions conflicts resolved) state := by
  induction conflicts generalizing resolved file? state with
  | nil =>
      intro final hfinal
      obtain rfl := Except.ok.inj hfinal
      exact ⟨file?, hawaits, hunmixed.hashed, hdue⟩
  | cons conflict rest ih =>
      rw [List.map_cons, List.sum_cons] at hdue
      rw [applyResolutions, holds_bind]
      apply (holds_applyResolution_unmixed hunmixed hdue hawaits).mono
      intro result after hresult
      cases result with
      | error error =>
          intro final hfinal
          cases hfinal
      | ok next =>
          obtain ⟨next?, hnext?, hnext, hless⟩ := hresult next rfl
          exact ih hnext hless hnext?

/-! ## The whole cycle -/

/-- An operation that sends no put. -/
def Effect.Silent (effect : Effect) : Prop := ∀ op, effect ≠ .applyOp op

theorem Effect.Books.silent {effect : Effect} (hbooks : effect.Books) : effect.Silent := by
  rintro op rfl
  exact hbooks

theorem Effect.Downloads.silent {effect : Effect} (hdownloads : effect.Downloads) :
    effect.Silent := by
  rintro op rfl
  exact hdownloads

theorem prepareSync_silent (crypto : Crypto) (ignore : IgnoreRules) :
    Within Effect.Silent (fun _ => True) (prepareSync crypto ignore) := by
  rw [prepareSync, within_bind, within_perform]
  refine ⟨by simp [Effect.Silent], ?_⟩
  intro loaded
  split
  next => trivial
  next =>
    rw [within_bind]
    apply ((fetchRemoteManifest_books crypto).weaken fun effect => Effect.Books.silent).mono
    intro remote _
    split
    next => trivial
    next =>
      rw [within_bind]
      exact ((applyDownloads_downloads crypto _).weaken fun effect => Effect.Downloads.silent).mono
        fun _ _ => trivial

theorem holds_silent {crypto : Crypto} {α : Type} {prog : Eff α}
    (hwithin : Within Effect.Silent (fun _ => True) prog) (due : Nat) (state : World × Nat) :
    Holds (beside context path due (PutsMatch crypto path)) (fun _ _ => True) prog state := by
  have hany : Holds (beside context path due (PutsMatch crypto path)) (fun _ _ => True ∧ True) prog
      state := by
    apply hwithin.holds
    · exact fun _ _ _ _ => trivial
    · intro effect hsilent before reply after _ _
      exact ⟨putsMatch_of_ne hsilent before.1 reply after.1, trivial⟩
    · trivial
  exact hany.mono fun _ _ _ => trivial

/-- What the plan recorded for the path is there when its completion starts, and nobody but the
engine changes the file until it has been read for every upload of the path. -/
theorem holds_completeSync_right (hideal : context.crypto.Ideal) (plan : SyncPlan)
    (resolutions : List ConflictResolution) {due : Nat} {world : World}
    (hunmixed : Unmixed context.crypto resolutions path plan.conflicts plan.upload
      world.device.folder[path]?)
    (hdue : dueReads path plan.upload + (plan.conflicts.map (answerReads resolutions path)).sum ≤
      due) :
    Holds (beside context path due (PutsMatch context.crypto path)) (fun _ _ => True)
      (completeSync context.crypto plan resolutions) (world, 0) := by
  have hstart : Unmixed context.crypto resolutions path plan.conflicts
      (⟨plan.upload, []⟩ : Resolved).uploads world.device.folder[path]? := hunmixed
  have hawaits : Awaits path due world.device.folder[path]? 0 (world, 0) := ⟨rfl, fun _ => rfl⟩
  rw [completeSync, holds_bind]
  apply (holds_applyResolutions_unmixed hstart hdue hawaits).mono
  intro result resolvedWorld hresolved
  cases result with
  | error error => trivial
  | ok resolved =>
      obtain ⟨final?, hfinal?, hhashes, hless⟩ := hresolved resolved rfl
      simp only [holds_bind]
      apply (holds_runUploads_right hideal hhashes (by rwa [Nat.zero_add]) _ hfinal?).mono
      intro uploads uploaded _
      split
      next => trivial
      next =>
        rw [holds_bind]
        apply (holds_silent ((checkpoint_books context.crypto _).weaken fun effect =>
          Effect.Books.silent) due uploaded).mono
        intro result after _
        cases result with
        | error error => trivial
        | ok value => trivial

/-! ## A note that is edited -/

/-- The plan of a device whose one note is new. -/
def notePlan : SyncPlan where
  upload := [{ path := "note", kind := .upload, remoteEntry := none,
               localEntry := some (walkEntry .sample ⟨[104, 105], 1⟩) }]
  download := []
  conflicts := []
  failures := []

def putMatches (crypto : Crypto) : Effect → Bool
  | .applyOp (.put _ _ contentHash content) =>
      match crypto.decrypt content with
      | .ok plaintext => contentHash = crypto.contentHmac plaintext
      | .error _ => false
  | _ => true

theorem putMatches_of_putsMatch {crypto : Crypto} {before after : World} {effect : Effect}
    {reply : effect.Reply} (hmatch : ∀ path, PutsMatch crypto path before effect reply after) :
    putMatches crypto effect = true := by
  cases effect with
  | applyOp op =>
      cases op with
      | put path parentHash contentHash content =>
          obtain ⟨plaintext, hdecrypt, rfl⟩ := hmatch path parentHash contentHash content rfl
          simp [putMatches, hdecrypt]
      | delete path parentHash => rfl
  | _ => rfl

/-- What happens while the note is on its way: it is edited before it is read. -/
def editWhileUploading : List EditedEnv :=
  List.replicate 5 ⟨{}, none⟩ ++
    [⟨{}, some (oneFile "note" [98, 121, 101])⟩, ⟨{}, none⟩, ⟨{}, none⟩]

/-- The note is edited after it was hashed, before it is read. -/
theorem edited_note_carries_old_hash :
    ¬ ∀ context : Context, context.crypto.Ideal → ∀ world,
      Holds (editing context fun before effect reply after =>
          ∀ path, PutsMatch context.crypto path before effect reply after) (fun _ _ => True)
        (cycle context.crypto context.ignore) world := by
  intro hall
  have hchecked := execAll_of_editing (fun _ _ _ hmatch => putMatches_of_putsMatch hmatch)
    (hall sampleContext sampleContext_ideal.crypto sampleWorld) editWhileUploading
  exact absurd hchecked (by decide +kernel)

end ObSink.Engine
