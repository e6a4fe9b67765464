import ObSink.Engine.Settle

/-! # The steps of an undisturbed cycle

What each operation does to the path it is about when nobody disturbs the
cycle: downloads pull the server's version, uploads push the folder's.
-/

namespace ObSink.Engine

open Prog (Setting Holds perform holds_bind holds_perform holds_pure holds_forall)

section Steps

variable {context : Context} {choose : String → ConflictResolutionChoice} {sizes : Bool}
  {target : String → Versions} {path : String} {start : View}

variable (context start) in
/-- The folder has the server's version; nothing else has changed. -/
def Pulled (view : View) : Prop :=
  view.row = start.row ∧ view.base = start.base ∧
    fileVersion context.crypto view.file = version start.row

variable (context start) in
/-- The server has the folder's version; nothing else has changed. -/
def Pushed (view : View) : Prop :=
  view.file = start.file ∧ view.base = start.base ∧
    version view.row = fileVersion context.crypto start.file

/-- Where folder and server agree, that version settles. -/
theorem View.goal_of_level {view : View}
    (hlevel : fileVersion context.crypto view.file = version view.row)
    (hseen : context.ignore.isIgnored path = false) :
    view.goal context choose path = .all (version view.row) := by
  simp [View.goal, settle, hseen, View.versions, hlevel]

theorem targets_pulled (hseen : context.ignore.isIgnored path = false)
    (hgoal : target path = .all (version start.row)) :
    Targets context choose target path (Pulled context start) := by
  rintro view ⟨hrow, _, hfile⟩
  rw [View.goal_of_level (by rw [hfile, hrow]) hseen, hrow, hgoal]

theorem targets_pushed (hseen : context.ignore.isIgnored path = false)
    (hgoal : target path = .all (fileVersion context.crypto start.file)) :
    Targets context choose target path (Pushed context start) := by
  rintro view ⟨hfile, _, hrow⟩
  rw [View.goal_of_level (by rw [hrow, hfile]) hseen, hrow, hgoal]

/-- Nothing has happened to the path yet. -/
theorem targets_start (hgoal : start.goal context choose path = target path) :
    Targets context choose target path (· = start) := by
  rintro view rfl
  exact hgoal

/-! ## Downloads -/

/-- While the blob of a path is at hand. -/
def Fetching (start : View) (blob : Bytes) (view : View) : Prop :=
  view = start ∧ start.blob = some blob

theorem targets_fetching (hgoal : start.goal context choose path = target path) (blob : Bytes) :
    Targets context choose target path (Fetching start blob) :=
  fun view hview => targets_start hgoal view hview.1

/-- A live row comes with its blob. -/
theorem triple_get {entry : FileEntry} (hrow : start.row = some entry)
    (hlive : entry.deleted = false) (hgoal : start.goal context choose path = target path) :
    (quiet context choose sizes target path).Triple (.getFile path)
      (Here context path (· = start))
      (orFailed (fun blob => Here context path (Fetching start blob)) fun _ => False) := by
  rintro before reply after ⟨hsound, hview⟩ ⟨⟨⟨env, hclean, hhandle⟩, _⟩, _⟩
  have hremote : remoteAt context before.server path = some entry := by
    rw [← hrow, ← hview]
    rfl
  have hplain := plain_of_remoteAt hremote
  have hhonest := hsound.row entry hremote
  obtain ⟨_, _, hblob⟩ := hhonest.hashed
  obtain ⟨blob, hcontent, _⟩ := hblob hlive
  have hget := Server.getFile_of_body hsound.member hhonest.token_valid
    (by rw [← hcontent, contentAt, if_pos hplain])
  simp only [handle, Env.onNetwork, hclean.1, hget, Prod.mk.injEq] at hhandle
  obtain ⟨rfl, rfl⟩ := hhandle
  refine ⟨⟨hsound, by rw [hview]; exact hgoal, fun _ => trivial⟩, hsound, hview, ?_⟩
  rw [← hview, ← hcontent]
  rfl

/-- The blob at hand is a ciphertext of what the row's hash is of. -/
theorem decrypt_of_fetching {entry : FileEntry} (hrow : start.row = some entry)
    (hlive : entry.deleted = false) {blob : Bytes} {world : World}
    (hhere : Here context path (Fetching start blob) world) :
    ∃ content, entry.hash = context.crypto.contentHmac content ∧
      context.crypto.decrypt blob = .ok content := by
  obtain ⟨hsound, hview, hblob⟩ := hhere
  have hremote : remoteAt context world.server path = some entry := by
    rw [← hrow, ← hview]
    rfl
  obtain ⟨content, hhash, hblobs⟩ := (hsound.row entry hremote).hashed
  obtain ⟨found, hcontent, hfound⟩ := hblobs hlive
  have hlookup : contentAt context world.server path = some blob := by
    rw [← hblob, ← hview]
    rfl
  rw [hcontent] at hlookup
  exact ⟨content, hhash, Option.some.inj hlookup ▸ hfound⟩

/-- Writing the fetched content pulls the server's version. -/
theorem triple_write {entry : FileEntry} (hrow : start.row = some entry)
    (hlive : entry.deleted = false) (hseen : context.ignore.isIgnored path = false)
    (hgoal : target path = .all (version start.row)) {blob plaintext : Bytes}
    (hdecrypt : context.crypto.decrypt blob = .ok plaintext) :
    (quiet context choose sizes target path).Triple (.writeFile path plaintext)
      (Here context path (Fetching start blob))
      (orFailed (fun _ => Here context path (Pulled context start)) fun _ => False) := by
  rintro before reply after hhere ⟨⟨⟨env, hclean, hhandle⟩, _⟩, _⟩
  obtain ⟨content, hhash, hfound⟩ := decrypt_of_fetching hrow hlive hhere
  rw [hdecrypt] at hfound
  obtain rfl := Except.ok.inj hfound
  obtain ⟨hsound, hview, _⟩ := hhere
  have hremote : remoteAt context before.server path = some entry := by
    rw [← hrow, ← hview]
    rfl
  have hhonest := hsound.row entry hremote
  simp only [handle, hclean.change, Prod.mk.injEq] at hhandle
  obtain ⟨rfl, rfl⟩ := hhandle
  have hfile : (before.device.setFile path ⟨plaintext, env.now⟩).folder[path]? =
      some ⟨plaintext, env.now⟩ := by
    simp [Device.setFile]
  have hpulled : Pulled context start
      (World.view context { before with device := before.device.setFile path ⟨plaintext, env.now⟩ }
        path) := by
    refine ⟨by rw [← hview]; rfl, by rw [← hview]; rfl, ?_⟩
    simp only [World.view, hfile, fileVersion, hrow, version, hlive, Bool.false_eq_true, ↓reduceIte,
      hhash]
  have hnew : SoundAt context path
      { before with device := before.device.setFile path ⟨plaintext, env.now⟩ } :=
    ⟨hsound.member, hsound.noStrays, hsound.row,
      fun _ _ => ⟨plain_of_remoteAt hremote, hhonest.token_valid⟩, hsound.cached⟩
  exact ⟨⟨hnew, targets_pulled hseen hgoal _ hpulled, fun _ => trivial⟩, hnew, hpulled⟩

/-- Deleting the file of a path that is gone from the server pulls that. -/
theorem triple_deleteLocal (hgone : version start.row = .gone)
    (hseen : context.ignore.isIgnored path = false)
    (hgoal : target path = .all (version start.row)) :
    (quiet context choose sizes target path).Triple (.deleteLocalFile path)
      (Here context path (· = start))
      (orFailed (fun _ => Here context path (Pulled context start)) fun _ => False) := by
  rintro before reply after ⟨hsound, hview⟩ ⟨⟨⟨env, hclean, hhandle⟩, _⟩, _⟩
  have hdone : ∀ device : Device, device.folder[path]? = none →
      device.base = before.device.base → device.cache = before.device.cache →
      SoundAt context path { before with device } ∧
        Pulled context start (World.view context { before with device } path) := by
    intro device hfile hbase hcache
    refine ⟨⟨hsound.member, hsound.noStrays, hsound.row, ?_, ?_⟩, ?_, ?_, ?_⟩
    · intro file hsome
      rw [show device.folder[path]? = some file from hsome] at hfile
      cases hfile
    · intro cache etag hsome
      exact hsound.cached cache etag (hcache.symm.trans hsome)
    · rw [← hview]
      rfl
    · rw [← hview]
      simp only [World.view, hbase]
    · simp only [World.view, hfile, fileVersion, hgone]
  cases hfile : before.device.folder[path]? with
  | none =>
      simp only [handle, hfile, Prod.mk.injEq] at hhandle
      obtain ⟨rfl, rfl⟩ := hhandle
      obtain ⟨hnew, hpulled⟩ := hdone before.device hfile rfl rfl
      exact ⟨⟨hnew, targets_pulled hseen hgoal _ hpulled, fun _ => trivial⟩, hnew, hpulled⟩
  | some file =>
      simp only [handle, hfile, hclean.change, Prod.mk.injEq] at hhandle
      obtain ⟨rfl, rfl⟩ := hhandle
      obtain ⟨hnew, hpulled⟩ := hdone (before.device.removeFile path)
        (by simp [Device.removeFile]) rfl rfl
      exact ⟨⟨hnew, targets_pulled hseen hgoal _ hpulled, fun _ => trivial⟩, hnew, hpulled⟩

/-! ## Uploads -/

/-- A ciphertext of a file. -/
def SealOf (context : Context) (file : StoredFile) (content : Bytes) : Prop :=
  context.crypto.decrypt content = .ok file.content ∧
    content.length = file.content.length + sealOverhead

theorem sealOf_encrypt (hideal : context.Ideal) (nonce : Aead.Nonce) (file : StoredFile) :
    SealOf context file (context.crypto.encrypt nonce file.content) := by
  refine ⟨hideal.crypto.decrypt_encrypt nonce file.content, ?_⟩
  have hlength := hideal.crypto.aead_correct.encrypt_length
    context.crypto.keys.contentEnc nonce.1 [] file.content
  have hnonce := nonce.2
  simp only [Crypto.encrypt, Crypto.encryptWith, List.length_append, hlength, hnonce,
    Aead.nonceLen, sealOverhead]
  omega

variable (context choose path start) in
/-- An action that makes the server follow the folder: it carries the file that
is there, or the news that there is none, and it knows the row. -/
structure Pushes (action : SyncAction) : Prop where
  path_eq : action.path = path
  seen : context.ignore.isIgnored path = false
  side : (action.kind = .upload ∧ ∃ file, start.file = some file ∧
      action.localEntry = some (walkEntry context.crypto file)) ∨
    (action.kind = .deleteRemote ∧ start.file = none ∧ ∃ entry, start.row = some entry)
  gate : ∀ row, start.row = some row → row.hash = (parentHash action).getD ""
  goal : start.goal context choose path =
    if start.tooLarge then start.versions context.crypto
    else .all (fileVersion context.crypto start.file)

theorem triple_seal (hideal : context.Ideal)
    (hgoal : start.goal context choose path = target path) {file : StoredFile}
    (hfile : start.file = some file) :
    (quiet context choose sizes target path).Triple (.sealFile path)
      (Here context path (· = start))
      (orFailed (fun content world => SealOf context file content ∧
        Here context path (· = start) world) fun _ => False) := by
  rintro before reply after ⟨hsound, hview⟩ ⟨⟨⟨env, hclean, hhandle⟩, _⟩, _⟩
  have hfound : before.device.folder[path]? = some file := by
    rw [← hfile, ← hview]
    rfl
  simp only [handle, hfound, hclean.onDevice, Prod.mk.injEq] at hhandle
  obtain ⟨rfl, rfl⟩ := hhandle
  exact ⟨⟨hsound, by rw [hview]; exact hgoal, fun _ => trivial⟩,
    sealOf_encrypt hideal env.nonce file, hsound, hview⟩

/-- The put of a file pushes it, unless it is too large. -/
theorem triple_put (hideal : context.Ideal)
    (hgoal : start.goal context choose path = target path) {action : SyncAction}
    (hpushes : Pushes context choose path start action) {file : StoredFile}
    (hfile : start.file = some file)
    (hentry : action.localEntry = some (walkEntry context.crypto file)) {content : Bytes}
    (hseal : SealOf context file content) :
    (quiet context choose sizes target path).Triple
      (.applyOp (.put path (parentHash action)
        ((action.localEntry.map FileEntry.hash).getD "") content))
      (Here context path (· = start))
      (orFailed (fun _ => Here context path (Pushed context start))
        fun world => (sizes = true ∧ start.tooLarge = true) ∧
          Here context path (· = start) world) := by
  rintro before reply after ⟨hsound, hview⟩ ⟨⟨⟨env, hclean, hhandle⟩, _⟩, hallowed⟩
  have hhash : (action.localEntry.map FileEntry.hash).getD "" =
      context.crypto.contentHmac file.content := by
    simp [hentry, walkEntry]
  rw [hhash] at hhandle hallowed ⊢
  have hfound : before.device.folder[path]? = some file := by
    rw [← hfile, ← hview]
    rfl
  obtain ⟨hplain, hvalid⟩ := hsound.named file hfound
  have hremote : remoteAt context before.server path = start.row := by
    rw [← hview]
    rfl
  let op : BatchOp :=
    .put path (parentHash action) (context.crypto.contentHmac file.content) content
  let call := callOf context env op
  -- the row is still the one the parent hash was taken from
  have hparent : ∀ row, before.server.vault.files[context.crypto.pathToken path]? = some row →
      row.hash = (parentHash action).getD "" := by
    intro row hrow
    refine hpushes.gate row ?_
    rw [← hremote, remoteAt_of_plain _ _ hplain]
    exact hrow
  have htrim : (Text.trim (context.crypto.contentHmac file.content)) =
      context.crypto.contentHmac file.content := hideal.crypto.trim_contentHmac _
  have hopen := @Server.serve_put_open context.server call before.server hclean.2 _ _ rfl
    hsound.member hvalid (context.crypto.contentHmac file.content)
    (by simp [Server.PutParams.hash, htrim, Option.filter,
      hideal.crypto.contentHmac_ne_empty]) hparent
  simp only [handle, Prod.mk.injEq] at hhandle
  obtain ⟨hreply, hafter⟩ := hhandle
  have hlimit : before.server.vault.maxFileSize = start.maxFileSize := by
    rw [← hview]
    rfl
  rcases hopen with ⟨hsize, hserve⟩ | hserve | ⟨hsize, entry, hwritten⟩
  · -- too large: nothing changes, and `sizes` lets it pass
    have hlarge : start.tooLarge = true := by
      simp only [View.tooLarge, hfile, Option.any_some, decide_eq_true_eq, ← hseal.2, ← hlimit]
      exact hsize
    have hsame : after = before := by
      rw [← hafter, show (callOf context env op).serve context.server before.server = _ from hserve]
    have herror : reply = .error (.status 413 "file too large") := by
      rw [← hreply, show (callOf context env op).serve context.server before.server = _ from hserve]
    subst hsame herror
    have hsizes : sizes = true := by
      simpa [withinLimits, Server.ApiError.statusCode] using hallowed
    refine ⟨⟨hsound, by rw [hview]; exact hgoal, ?_⟩, ⟨hsizes, hlarge⟩, hsound, hview⟩
    intro hoff
    rw [hsizes] at hoff
    cases hoff
  · -- over quota: a quiet run has no such answer
    have herror : reply = .error (.status 507 Server.quotaMessage) := by
      rw [← hreply, show (callOf context env op).serve context.server before.server = _ from hserve]
    subst herror
    simp [withinLimits, Server.ApiError.statusCode] at hallowed
  · -- written: row and file agree
    have hsmall : start.tooLarge = false := by
      simp only [View.tooLarge, hfile, Option.any_some, decide_eq_false_iff_not,
        ← hseal.2, ← hlimit]
      have hle : content.length ≤ before.server.vault.maxFileSize := hsize
      omega
    have hok : reply = .ok (.written entry) := by
      rw [← hreply]
      exact hwritten
    obtain ⟨hnewRow, hnewBlob, hwrites⟩ := served_own hideal hclean (show Plain op.path from hplain)
      hwritten
    obtain ⟨hlive, hnewHash, hhonest⟩ :=
      HonestRow.put hideal hplain hvalid hseal.1 hwrites hnewBlob
    have hserved := served hideal hclean (show Plain op.path from hplain) before.server
    have hnew := hsound.served_own hserved hnewRow hhonest
    have hpushed : Pushed context start (World.view context
        { before with server := (call.serve context.server before.server).2 } path) := by
      refine ⟨by rw [← hview]; rfl, by rw [← hview]; rfl, ?_⟩
      have hrow : (World.view context
          { before with server := (call.serve context.server before.server).2 } path).row =
          some entry := hnewRow
      rw [hrow, hfile]
      simp [version, hlive, fileVersion, hnewHash]
    subst hok
    rw [← hafter]
    refine ⟨⟨hnew, ?_, fun _ => trivial⟩, hnew, hpushed⟩
    refine targets_pushed hpushes.seen ?_ _ hpushed
    rw [← hgoal, hpushes.goal, hsmall]
    rfl

/-- The delete of a path with no file pushes that. -/
theorem triple_delete (hideal : context.Ideal)
    (hgoal : start.goal context choose path = target path) {action : SyncAction}
    (hpushes : Pushes context choose path start action) (hfile : start.file = none)
    {row : FileEntry} (hrow : start.row = some row) :
    (quiet context choose sizes target path).Triple
      (.applyOp (.delete path (parentHash action))) (Here context path (· = start))
      (orFailed (fun _ => Here context path (Pushed context start)) fun _ => False) := by
  rintro before reply after ⟨hsound, hview⟩ ⟨⟨⟨env, hclean, hhandle⟩, _⟩, _⟩
  have hremote : remoteAt context before.server path = some row := by
    rw [← hrow, ← hview]
    rfl
  have hplain := plain_of_remoteAt hremote
  have hhonest := hsound.row row hremote
  let op : BatchOp := .delete path (parentHash action)
  let call := callOf context env op
  have hparent : ∀ found, before.server.vault.files[context.crypto.pathToken path]? = some found →
      found.hash = (parentHash action).getD "" := by
    intro found hfound
    refine hpushes.gate found ?_
    rw [hrow, ← hremote, remoteAt_of_plain _ _ hplain]
    exact hfound
  obtain ⟨entry, hwritten⟩ := @Server.serve_delete_open context.server call before.server hclean.2
    _ _ rfl hsound.member hhonest.token_valid hparent
  simp only [handle, Prod.mk.injEq] at hhandle
  obtain ⟨hreply, hafter⟩ := hhandle
  have hok : reply = .ok (.written entry) := by
    rw [← hreply]
    exact hwritten
  obtain ⟨hnewRow, _, hwrites⟩ := served_own hideal hclean (show Plain op.path from hplain) hwritten
  rw [show remoteAt context before.server op.path = some row from hremote] at hwrites
  obtain ⟨rfl, _⟩ := hwrites
  have hserved := served hideal hclean (show Plain op.path from hplain) before.server
  have hnew := hsound.served_own hserved hnewRow (hhonest.tombstone env.now)
  have hpushed : Pushed context start (World.view context
      { before with server := (call.serve context.server before.server).2 } path) := by
    refine ⟨by rw [← hview]; rfl, by rw [← hview]; rfl, ?_⟩
    have hnewVersion : (World.view context
        { before with server := (call.serve context.server before.server).2 } path).row =
        some (Server.tombstone (some row) env.now) := hnewRow
    rw [hnewVersion, hfile]
    rfl
  have hsmall : start.tooLarge = false := by simp [View.tooLarge, hfile]
  subst hok
  rw [← hafter]
  refine ⟨⟨hnew, ?_, fun _ => trivial⟩, hnew, hpushed⟩
  refine targets_pushed hpushes.seen ?_ _ hpushed
  rw [← hgoal, hpushes.goal, hsmall]
  rfl

/-! ## The upload phase of a path -/

variable (context choose target path) in
/-- Only the checkpoint is left. -/
def Ready (view : View) : Prop :=
  (context.ignore.isIgnored path = true ∨
      fileVersion context.crypto view.file = version view.row) ∧
    view.goal context choose path = target path

theorem ready_pulled (hseen : context.ignore.isIgnored path = false)
    (hgoal : target path = .all (version start.row)) {view : View}
    (hpulled : Pulled context start view) : Ready context choose target path view := by
  refine ⟨Or.inr ?_, targets_pulled hseen hgoal view hpulled⟩
  rw [hpulled.2.2, hpulled.1]

variable (context choose sizes target path start) in
/-- The path with the given actions still to come. -/
def uploading : List SyncAction → Bool → World → Prop
  | [], false => fun world => Here context path (Ready context choose target path) world
  | [action], false => fun world => Here context path (· = start) world ∧
      Pushes context choose path start action
  | [], true => fun world => Here context path (· = start) world ∧
      (sizes = true ∧ target path = start.versions context.crypto)
  | _, _ => fun _ => False

theorem targets_ready :
    Targets context choose target path (Ready context choose target path) :=
  fun _ hready => hready.2

theorem uploading_cons {left right : List SyncAction} {action : SyncAction} {refused : Bool}
    {world : World}
    (hstate : uploading context choose sizes target path start (left ++ action :: right) refused
      world) :
    left = [] ∧ right = [] ∧ refused = false ∧ Here context path (· = start) world ∧
      Pushes context choose path start action := by
  cases left with
  | nil =>
      cases right with
      | nil =>
          cases refused with
          | false => exact ⟨rfl, rfl, rfl, hstate⟩
          | true => exact hstate.elim
      | cons second rest => exact hstate.elim
  | cons first rest =>
      cases rest with
      | nil => exact hstate.elim
      | cons second rest => exact hstate.elim

theorem uploadRule (hideal : context.Ideal)
    (hgoal : start.goal context choose path = target path) :
    UploadRule (quiet context choose sizes target path) path
      (fun _ content => ∃ file, start.file = some file ∧ SealOf context file content)
      (uploading context choose sizes target path start) where
  stable := by
    have hstart := fun sizes => @stable_here context choose sizes target path hideal _
      (targets_start hgoal)
    intro rest refused
    match rest, refused with
    | [], false => exact stable_here hideal targets_ready
    | [action], false => exact (hstart sizes).and_fact _
    | [], true => exact (hstart sizes).and_fact _
    | [_], true => exact stable_never
    | _ :: _ :: _, _ => exact stable_never
  sealed := by
    intro left action right refused hpath hkind before reply after hstate hperform
    obtain ⟨rfl, rfl, rfl, hhere, hpushes⟩ := uploading_cons hstate
    -- only an upload is sealed
    rcases hpushes.side with ⟨_, file, hfile, _⟩ | ⟨hdelete, _⟩
    · obtain ⟨hguarantee, hreply⟩ :=
        triple_seal hideal hgoal hfile before reply after hhere hperform
      refine ⟨hguarantee, ?_⟩
      cases reply with
      | ok content => exact ⟨⟨file, hfile, hreply.1⟩, hreply.2, hpushes⟩
      | error error => exact hreply.elim
    · rw [hkind] at hdelete
      cases hdelete
  put := by
    intro action rest refused content hpath hkind hfact before reply after hstate hperform
    obtain ⟨file, hfile, hseal⟩ := hfact
    obtain ⟨_, rfl, rfl, hhere, hpushes⟩ :=
      uploading_cons (show uploading _ _ _ _ _ _ ([] ++ action :: rest) refused before from hstate)
    rcases hpushes.side with ⟨_, found, hfound, hentry⟩ | ⟨hdelete, _⟩
    · obtain rfl : file = found := Option.some.inj (hfile.symm.trans hfound)
      obtain ⟨hguarantee, hreply⟩ :=
        triple_put hideal hgoal hpushes hfile hentry hseal before reply after hhere hperform
      refine ⟨hguarantee, ?_⟩
      cases reply with
      | ok outcome =>
          obtain ⟨hsound, hpushed⟩ := hreply
          refine ⟨hsound, Or.inr ?_, ?_⟩
          · rw [hpushed.2.2, hpushed.1]
          · exact hguarantee.2.1
      | error error =>
          -- refused as too large: the path stays where it started
          obtain ⟨⟨hsizes, hlarge⟩, hhere⟩ := hreply
          refine ⟨hhere, hsizes, ?_⟩
          rw [← hgoal, hpushes.goal, hlarge]
          rfl
    · rw [hkind] at hdelete
      cases hdelete
  delete := by
    intro action rest refused hpath hkind before reply after hstate hperform
    obtain ⟨_, rfl, rfl, hhere, hpushes⟩ :=
      uploading_cons (show uploading _ _ _ _ _ _ ([] ++ action :: rest) refused before from hstate)
    rcases hpushes.side with ⟨hupload, _⟩ | ⟨_, hfile, row, hrow⟩
    · rw [hkind] at hupload
      cases hupload
    · obtain ⟨hguarantee, hreply⟩ :=
        triple_delete hideal hgoal hpushes hfile hrow before reply after hhere hperform
      refine ⟨hguarantee, ?_⟩
      cases reply with
      | ok outcome =>
          obtain ⟨hsound, hpushed⟩ := hreply
          refine ⟨hsound, Or.inr ?_, ?_⟩
          · rw [hpushed.2.2, hpushed.1]
          · exact hguarantee.2.1
      | error error => exact hreply.elim

/-- With nothing failing, requests arrive, and the server refuses by a check or
by the gate. -/
theorem undisturbed_refusal {op : BatchOp} {before after : World} {error : Server.ApiError}
    (hperform : Undisturbed context choose sizes (.applyOp op) before (.error error) after) :
    (∀ message, error ≠ .internal message) ∧ error.statusCode ∈ [400, 404, 409, 413] := by
  obtain ⟨⟨⟨env, hclean, hhandle⟩, _⟩, hallowed⟩ := hperform
  simp only [handle, Prod.mk.injEq] at hhandle
  obtain ⟨hinternal, hstatus⟩ := Server.serve_refusal hclean.2 hhandle.1
  refine ⟨hinternal, ?_⟩
  have hquota : error.statusCode ≠ 507 := by
    simp only [withinLimits, Bool.and_eq_true, decide_eq_true_eq] at hallowed
    exact hallowed.1
  simpa [hquota] using hstatus

theorem quietNetwork : QuietNetwork (quiet context choose sizes target path) where
  send := by
    rintro before reply after ⟨⟨⟨env, hclean, hhandle⟩, _⟩, _⟩
    simp only [handle, Env.onNetwork, hclean.1, Prod.mk.injEq] at hhandle
    exact hhandle.1.symm
  receive := by
    rintro before reply after ⟨⟨⟨env, hclean, hhandle⟩, _⟩, _⟩
    simp only [handle, Env.onNetwork, hclean.1, Prod.mk.injEq] at hhandle
    exact hhandle.1.symm
  read := by
    rintro before reply after ⟨⟨⟨env, hclean, hhandle⟩, _⟩, _⟩
    simp only [handle, Env.onNetwork, hclean.1, Prod.mk.injEq] at hhandle
    exact hhandle.1.symm
  refusal := by
    intro op before error after hperform
    obtain ⟨hinternal, hstatus⟩ := undisturbed_refusal hperform
    refine ⟨hinternal, ?_⟩
    simp only [List.mem_cons, List.not_mem_nil, or_false] at hstatus
    omega

end Steps

end ObSink.Engine
