import ObSink.Engine.Quiet
import ObSink.Engine.Rounds
import ObSink.Lib.Writes

/-! # What a round leaves, path by path

A resolution round on which nobody else acts and in which nothing fails comes to a
list of writes into the folder, and at each path to a list of gated writes to its
row on the server.
-/

namespace ObSink.Engine

open Prog (Setting Holds Within perform holds_bind holds_perform holds_pure)
open Writes (written gated Gated Cell written_append)

/-! ## What the answers write and send -/

/-- The contents of a folder. -/
def contents (folder : Folder) (path : String) : Option Bytes :=
  folder[path]?.map StoredFile.content

/-- The text of the blob that the server has for a path. -/
def World.text (context : Context) (world : World) (path : String) : Option Bytes :=
  (contentAt context world.server path).bind fun blob => (context.crypto.decrypt blob).toOption

/-- What the answer to a conflict writes into the folder. -/
def writesOf (texts : String → Option Bytes) (resolutions : List ConflictResolution)
    (conflict : Conflict) : List (String × Option Bytes) :=
  match choiceOf resolutions conflict with
  | some .keepRemote =>
      [(conflict.path, if conflict.remoteEntry.deleted then none else texts conflict.path)]
  | some .keepBoth => [(conflictCopyPath conflict.path, texts conflict.path)]
  | _ => []

/-- What an upload says of its path. -/
structure Sent where
  path : String
  kind : SyncActionKind
  hash : String
  parent : String
  deriving DecidableEq

def Sent.of (action : SyncAction) : Sent where
  path := action.path
  kind := action.kind
  hash := (action.localEntry.map FileEntry.hash).getD ""
  parent := (parentHash action).getD ""

/-- The upload of a copy: it knows of no row. -/
def copySent (crypto : Crypto) (path : String) (text : Bytes) : Sent :=
  ⟨path, .upload, crypto.contentHmac text, ""⟩

/-- The uploads that the answer to a conflict adds. -/
def sentOf (crypto : Crypto) (texts : String → Option Bytes) (resolutions : List ConflictResolution)
    (conflict : Conflict) : List Sent :=
  match choiceOf resolutions conflict with
  | some .keepLocal => [Sent.of (conflictToUpload conflict)]
  | some .keepBoth => [Sent.of (conflictToUpload conflict),
      copySent crypto (conflictCopyPath conflict.path) ((texts conflict.path).getD [])]
  | _ => []

theorem sent_copyUpload (crypto : Crypto) (path : String) (file : StoredFile) :
    Sent.of (copyUpload crypto path file) = copySent crypto path file.content := rfl

theorem contents_setFile (device : Device) (path : String) (file : StoredFile) :
    contents (device.setFile path file).folder =
      Function.update (contents device.folder) path (some file.content) := by
  funext other
  by_cases hpath : other = path
  · subst hpath
    simp [contents, Device.setFile]
  · rw [Function.update_of_ne hpath]
    exact congrArg (Option.map StoredFile.content)
      (Std.ExtTreeMap.getElem?_insert_of_ne device.folder file (Ne.symm hpath))

theorem contents_removeFile (device : Device) (path : String) :
    contents (device.removeFile path).folder =
      Function.update (contents device.folder) path none := by
  funext other
  by_cases hpath : other = path
  · subst hpath
    simp [contents, Device.removeFile]
  · rw [Function.update_of_ne hpath]
    exact congrArg (Option.map StoredFile.content)
      (Std.ExtTreeMap.getElem?_erase_of_ne device.folder (Ne.symm hpath))

/-! ## The answers -/

section Calm

variable {context : Context} {choose : String → ConflictResolutionChoice}
  {resolutions : List ConflictResolution}

/-- The engine alone, with nothing failing. -/
def calm (context : Context) (choose : String → ConflictResolutionChoice) :
    Setting Effect Effect.Reply World where
  performs := Undisturbed context choose false
  rely := Eq
  guarantee := fun _ _ _ _ => True

/-- One operation, by what it does in an environment without faults. -/
theorem holds_calm {effect : Effect} {world : World} {post : effect.Reply → World → Prop}
    (hpost : ∀ env, env.Clean → post (handle context env effect world).1
      (handle context env effect world).2) :
    Holds (calm context choose) post (perform effect) world := by
  rintro before rfl reply after ⟨⟨⟨env, hclean, hhandle⟩, _⟩, _⟩
  have hafter := hpost env hclean
  rw [hhandle] at hafter
  exact ⟨trivial, hafter⟩

/-- The server is as it was, and the folder has these writes. -/
structure Wrote (writes : List (String × Option Bytes)) (world after : World) : Prop where
  server : after.server = world.server
  contents_eq : contents after.device.folder = written writes (contents world.device.folder)

theorem Wrote.refl (world : World) : Wrote [] world world := ⟨rfl, rfl⟩

theorem Wrote.trans {writes later : List (String × Option Bytes)} {world between after : World}
    (hfirst : Wrote writes world between) (hlater : Wrote later between after) :
    Wrote (writes ++ later) world after := by
  constructor
  · exact hlater.server.trans hfirst.server
  · rw [written_append, ← hfirst.contents_eq]
    exact hlater.contents_eq

theorem Wrote.text_eq {writes : List (String × Option Bytes)} {world after : World}
    (hwrote : Wrote writes world after) : after.text context = world.text context := by
  funext path
  unfold World.text
  rw [hwrote.server]

theorem holds_fetchTo_calm {source : String} (hplain : Plain source) (target : String)
    (world : World) :
    Holds (calm context choose) (fun result after => result = .ok () →
        Wrote [(target, world.text context source)] world after ∧
        ∃ file, after.device.folder[target]? = some file ∧
          world.text context source = some file.content)
      (fetchTo context.crypto source target) world := by
  rw [fetchTo, holds_bind]
  apply holds_calm
  intro env hclean
  simp only [handle, Env.onNetwork, hclean.1]
  cases hget : Server.getFile context.server world.server context.userId
      (context.crypto.pathToken source) with
  | error error =>
      intro hok
      cases hok
  | ok blob =>
      have hcontent : contentAt context world.server source = some blob := by
        rw [contentAt, if_pos hplain]
        exact Server.body_of_getFile hget
      simp only [decryptAndWrite]
      cases hdecrypt : context.crypto.decrypt blob with
      | error error =>
          intro hok
          cases hok
      | ok plaintext =>
          have htext : world.text context source = some plaintext := by
            rw [World.text, hcontent, Option.bind_some, hdecrypt]
            rfl
          apply holds_calm
          intro env hclean
          simp only [handle, hclean.change]
          intro _
          rw [htext]
          constructor
          · exact ⟨rfl, contents_setFile world.device target ⟨plaintext, env.now⟩⟩
          · exact ⟨⟨plaintext, env.now⟩, by simp [Device.setFile], rfl⟩

theorem holds_applyKeepRemote_calm {conflict : Conflict} (hplain : Plain conflict.path)
    (world : World) :
    Holds (calm context choose) (fun result after => result = .ok () → Wrote
        [(conflict.path, if conflict.remoteEntry.deleted then none
          else world.text context conflict.path)] world after)
      (applyKeepRemote context.crypto conflict) world := by
  unfold applyKeepRemote
  split
  next =>
    apply holds_calm
    intro env hclean _
    simp only [handle]
    cases hfile : world.device.folder[conflict.path]? with
    | none =>
        have hnone : none = contents world.device.folder conflict.path := by simp [contents, hfile]
        exact ⟨rfl, (Function.update_eq_self_iff.mpr hnone).symm⟩
    | some file =>
        simp only [hclean.change]
        exact ⟨rfl, contents_removeFile world.device conflict.path⟩
  next =>
    apply (holds_fetchTo_calm hplain conflict.path world).mono
    intro result after hafter hok
    exact (hafter hok).1

/-- The answer to one conflict. -/
theorem holds_applyResolution_calm {conflict : Conflict} (hplain : Plain conflict.path)
    (resolved : Resolved) (world : World) :
    Holds (calm context choose) (fun result after => ∀ next, result = .ok next →
        Wrote (writesOf (world.text context) resolutions conflict) world after ∧
        next.uploads.map Sent.of = resolved.uploads.map Sent.of ++
          sentOf context.crypto (world.text context) resolutions conflict)
      (applyResolution context.crypto resolutions resolved conflict) world := by
  unfold applyResolution writesOf sentOf choiceOf
  cases hanswer : resolutionFor resolutions conflict.path with
  | none =>
      intro next hnext
      cases hnext
  | some choice =>
      simp only [Option.map_some]
      cases heffective : effectiveChoice choice conflict with
      | defer =>
          intro next hnext
          obtain rfl := Except.ok.inj hnext
          exact ⟨.refl world, by simp⟩
      | keepLocal =>
          intro next hnext
          obtain rfl := Except.ok.inj hnext
          exact ⟨.refl world, by simp⟩
      | keepRemote =>
          simp only [holds_bind]
          apply (holds_applyKeepRemote_calm hplain world).mono
          intro result after hafter
          cases result with
          | error error =>
              intro next hnext
              cases hnext
          | ok value =>
              intro next hnext
              obtain rfl := Except.ok.inj hnext
              exact ⟨hafter rfl, by simp⟩
      | keepBoth =>
          simp only [holds_bind, writeConflictCopy]
          apply (holds_fetchTo_calm hplain (conflictCopyPath conflict.path) world).mono
          intro result after hafter
          cases result with
          | error error =>
              intro next hnext
              cases hnext
          | ok value =>
              obtain ⟨hwrote, file, hfile, htext⟩ := hafter rfl
              simp only [holds_pure, buildUploadActionForPath, holds_bind]
              apply holds_calm
              intro env hclean
              simp only [handle, hfile, hclean.onDevice]
              intro next hnext
              obtain rfl := Except.ok.inj hnext
              refine ⟨hwrote, ?_⟩
              rw [htext, List.map_append, Option.getD_some, ← sent_copyUpload]
              rfl

/-- All answers. -/
theorem holds_applyResolutions_calm {conflicts : List Conflict}
    (hplain : ∀ conflict ∈ conflicts, Plain conflict.path) (resolved : Resolved) (world : World) :
    Holds (calm context choose) (fun result after => ∀ final, result = .ok final →
        Wrote (conflicts.flatMap (writesOf (world.text context) resolutions)) world after ∧
        final.uploads.map Sent.of = resolved.uploads.map Sent.of ++
          conflicts.flatMap (sentOf context.crypto (world.text context) resolutions))
      (applyResolutions context.crypto resolutions conflicts resolved) world := by
  induction conflicts generalizing resolved world with
  | nil =>
      intro final hfinal
      obtain rfl := Except.ok.inj hfinal
      exact ⟨.refl world, by simp⟩
  | cons conflict rest ih =>
      rw [applyResolutions, holds_bind]
      apply (holds_applyResolution_calm (hplain conflict List.mem_cons_self) resolved world).mono
      intro result between hbetween
      cases result with
      | error error =>
          intro final hfinal
          cases hfinal
      | ok next =>
          obtain ⟨hfirst, huploads⟩ := hbetween next rfl
          apply (ih (fun later hmem => hplain later (List.mem_cons_of_mem _ hmem))
            next between).mono
          intro result after hafter final hfinal
          obtain ⟨hlater, hmore⟩ := hafter final hfinal
          rw [hfirst.text_eq] at hlater hmore
          refine ⟨hfirst.trans hlater, ?_⟩
          rw [hmore, huploads, List.flatMap_cons, List.append_assoc]

/-! ## The uploads -/

/-- What a view has as the row of its path: a hash, and a text unless it is deleted. -/
def View.entry (crypto : Crypto) (view : View) : Option (Cell String Bytes) :=
  view.row.map fun row => ⟨row.hash, if row.deleted then none
    else view.blob.bind fun blob => (crypto.decrypt blob).toOption⟩

def World.entryAt (context : Context) (world : World) (path : String) :
    Option (Cell String Bytes) :=
  (world.view context path).entry context.crypto

/-- What an upload asks of the row: a put sends the text that the file has at the time. -/
def gatedOf (kept : Option Bytes) (sent : Sent) : List (Gated String Bytes) :=
  match sent.kind, kept with
  | .upload, some text => [.put sent.hash sent.parent text]
  | .deleteRemote, _ => [.delete sent.parent]
  | _, _ => []

/-- What an accepted put leaves. -/
theorem entryAt_put (hideal : context.Ideal) {env : Env} (hclean : env.Clean) {path : String}
    (hplain : Plain path) {parentHash : Option String} {content text named : Bytes}
    (hdecrypt : context.crypto.decrypt content = .ok text) {before : World} {entry : FileEntry}
    (hwritten : ((callOf context env (.put path parentHash (context.crypto.contentHmac named)
      content)).serve context.server before.server).1 = .ok (.written entry)) :
    (handle context env (.applyOp (.put path parentHash (context.crypto.contentHmac named) content))
        before).2.entryAt context path =
      (Gated.put (context.crypto.contentHmac named) (parentHash.getD "") text).apply ""
        (before.entryAt context path) := by
  let op : BatchOp := .put path parentHash (context.crypto.contentHmac named) content
  obtain ⟨hrow, hblob, ⟨contentHash, hhash, rfl⟩, hgate⟩ :=
    served_own hideal hclean (show Plain op.path from hplain) hwritten
  have hkept : contentHash = context.crypto.contentHmac named := by
    simpa [Server.PutParams.hash, hideal.crypto.trim_contentHmac, Option.filter,
      hideal.crypto.contentHmac_ne_empty] using hhash.symm
  have hafter : (handle context env (.applyOp op) before).2.entryAt context path =
      some ⟨context.crypto.contentHmac named, some text⟩ := by
    have htext : ((some content).bind fun blob => (context.crypto.decrypt blob).toOption) =
        some text := by
      rw [Option.bind_some, hdecrypt]
      rfl
    have hblob : contentAt context (handle context env (.applyOp op) before).2.server path =
        some content := hblob
    have hrow : remoteAt context (handle context env (.applyOp op) before).2.server path =
        some _ := hrow
    simp only [World.entryAt, View.entry, World.view, hrow, hblob, Option.map_some, htext]
    rw [hkept]
    rfl
  rw [hafter]
  cases hfound : remoteAt context before.server path with
  | none =>
      simp only [World.entryAt, View.entry, World.view, hfound, Option.map_none]
      rfl
  | some row =>
      have hparent : row.hash = parentHash.getD "" := hgate row hfound
      simp only [World.entryAt, View.entry, World.view, hfound, Option.map_some, Gated.apply,
        hparent, ↓reduceIte]

/-- The gate stays shut for a write that does not know the row. -/
theorem apply_of_remoteAt {world : World} {path : String} {row : FileEntry}
    (hrow : remoteAt context world.server path = some row) (write : Gated String Bytes)
    (hparent : row.hash ≠ write.parent) :
    write.apply "" (world.entryAt context path) = world.entryAt context path := by
  simp only [World.entryAt, View.entry, World.view, hrow, Option.map_some]
  exact Writes.Gated.apply_of_parent_ne (Ne.symm hparent)

/-- A put, accepted or refused. -/
theorem entryAt_served_put (hideal : context.Ideal) {path : String} (hplain : Plain path)
    (hvalid : Server.validPath (context.crypto.pathToken path) = true)
    {parentHash : Option String} {content text named : Bytes}
    (hdecrypt : context.crypto.decrypt content = .ok text) {before after : World}
    (hmember : Server.requireMember none before.server.vault context.userId = .ok ())
    {reply : Except Server.ApiError Server.Outcome}
    (hperform : Undisturbed context choose false
      (.applyOp (.put path parentHash (context.crypto.contentHmac named) content))
        before reply after) :
    after.entryAt context path =
      (Gated.put (context.crypto.contentHmac named) (parentHash.getD "") text).apply ""
        (before.entryAt context path) := by
  obtain ⟨⟨⟨env, hclean, hhandle⟩, _⟩, hlimits⟩ := hperform
  let op : BatchOp := .put path parentHash (context.crypto.contentHmac named) content
  let call := callOf context env op
  have hreply : (call.serve context.server before.server).1 = reply := congrArg Prod.fst hhandle
  have hafter : { before with server := (call.serve context.server before.server).2 } = after :=
    congrArg Prod.snd hhandle
  rcases Server.serve_cases context.server hideal.aead hideal.pathName call before.server
    hclean.2 with ⟨hsame, hnot⟩ | ⟨entry, hwritten, _⟩
  · rw [← hafter, hsame]
    -- without faults and limits only the gate refuses
    have hshut : ∃ row, remoteAt context before.server path = some row ∧
        row.hash ≠ parentHash.getD "" := by
      by_contra hopen
      have hparent : ∀ row, before.server.vault.files[context.crypto.pathToken path]? = some row →
          row.hash = parentHash.getD "" := by
        intro row hrow
        by_contra hne
        exact hopen ⟨row, by rw [remoteAt_of_plain _ _ hplain]; exact hrow, hne⟩
      have hhash : Text.trim (context.crypto.contentHmac named) =
          context.crypto.contentHmac named :=
        hideal.crypto.trim_contentHmac named
      have hserved := @Server.serve_put_open context.server call before.server hclean.2 _ _ rfl
        hmember hvalid (context.crypto.contentHmac named)
        (by simp [Server.PutParams.hash, hhash, Option.filter, hideal.crypto.contentHmac_ne_empty])
        hparent
      rcases hserved with ⟨_, hserve⟩ | hserve | ⟨_, entry, hwritten⟩
      · rw [← hreply, hserve] at hlimits
        cases hlimits
      · rw [← hreply, hserve] at hlimits
        cases hlimits
      · exact hnot entry hwritten
    obtain ⟨row, hrow, hne⟩ := hshut
    exact (apply_of_remoteAt hrow (.put _ _ text) hne).symm
  · rw [← hafter]
    exact entryAt_put hideal hclean hplain hdecrypt hwritten

/-- A delete, accepted or refused. -/
theorem entryAt_served_delete (hideal : context.Ideal) {path : String} (hplain : Plain path)
    (hvalid : Server.validPath (context.crypto.pathToken path) = true)
    {parentHash : Option String} {before after : World}
    (hmember : Server.requireMember none before.server.vault context.userId = .ok ())
    {reply : Except Server.ApiError Server.Outcome}
    (hperform : Undisturbed context choose false (.applyOp (.delete path parentHash)) before reply
      after) :
    after.entryAt context path =
      (Gated.delete (parentHash.getD "")).apply "" (before.entryAt context path) := by
  obtain ⟨⟨⟨env, hclean, hhandle⟩, _⟩, _⟩ := hperform
  let op : BatchOp := .delete path parentHash
  let call := callOf context env op
  have hafter : { before with server := (call.serve context.server before.server).2 } = after :=
    congrArg Prod.snd hhandle
  rw [← hafter]
  rcases Server.serve_cases context.server hideal.aead hideal.pathName call before.server
    hclean.2 with ⟨hsame, hnot⟩ | ⟨entry, hwritten, _⟩
  · rw [hsame]
    have hshut : ∃ row, remoteAt context before.server path = some row ∧
        row.hash ≠ parentHash.getD "" := by
      by_contra hopen
      have hparent : ∀ row, before.server.vault.files[context.crypto.pathToken path]? = some row →
          row.hash = parentHash.getD "" := by
        intro row hrow
        by_contra hne
        exact hopen ⟨row, by rw [remoteAt_of_plain _ _ hplain]; exact hrow, hne⟩
      obtain ⟨entry, hwritten⟩ := @Server.serve_delete_open context.server call before.server
        hclean.2 _ _ rfl hmember hvalid hparent
      exact hnot entry hwritten
    obtain ⟨row, hrow, hne⟩ := hshut
    exact (apply_of_remoteAt hrow (.delete _) hne).symm
  · obtain ⟨hrow, _, hentry, hgate⟩ :=
      served_own hideal hclean (show Plain op.path from hplain) hwritten
    have hrow : remoteAt context (call.serve context.server before.server).2 path = some entry :=
      hrow
    have hentry : entry = Server.tombstone (remoteAt context before.server path) env.now := hentry
    subst hentry
    cases hfound : remoteAt context before.server path with
    | none =>
        simp only [World.entryAt, View.entry, World.view, hrow, hfound, Option.map_some,
          Option.map_none, Gated.apply, Server.tombstone]
        rfl
    | some row =>
        have hparent : row.hash = parentHash.getD "" := hgate row hfound
        simp only [World.entryAt, View.entry, World.view, hrow, hfound, Option.map_some,
          Gated.apply, Server.tombstone, hparent, ↓reduceIte]
        rfl

/-- An upload the server can take: a file under a hash of contents, or a delete. -/
structure Sendable (context : Context) (sent : Sent) : Prop where
  plain : Plain sent.path
  token_valid : Server.validPath (context.crypto.pathToken sent.path) = true
  kind : (sent.kind = .upload ∧ ∃ named, sent.hash = context.crypto.contentHmac named) ∨
    sent.kind = .deleteRemote

/-- The path with these uploads still to come, on the way to its last row. -/
structure Sending (context : Context) (path : String) (kept : Option Bytes)
    (last : Option (Cell String Bytes)) (rest : List SyncAction) (world : World) : Prop where
  member : Server.requireMember none world.server.vault context.userId = .ok ()
  kept_eq : contents world.device.folder path = kept
  sendable : ∀ action ∈ rest, Sendable context (Sent.of action)
  last_eq : gated "" ((rest.map Sent.of).flatMap (gatedOf kept)) (world.entryAt context path) = last

theorem member_elsewhere (hideal : context.Ideal) {env : Env} (hclean : env.Clean) {path : String}
    {effect : Effect} (helsewhere : effect.Elsewhere path) (world : World) :
    Server.requireMember none (handle context env effect world).2.server.vault context.userId =
      Server.requireMember none world.server.vault context.userId := by
  cases effect with
  | applyOp op => exact (served hideal hclean helsewhere.1 world.server).member
  | _ => rw [handle_server context env (fun op heq => by cases heq) world]

theorem stable_sending (hideal : context.Ideal) (path : String) (kept : Option Bytes)
    (last : Option (Cell String Bytes)) (rest : List SyncAction) :
    Stable (calm context choose) path (Sending context path kept last rest) where
  rely := by
    intro before after hsame hsending
    exact (show before = after from hsame) ▸ hsending
  elsewhere := by
    intro effect helsewhere before reply after hsending hperform
    obtain ⟨⟨⟨env, hclean, hhandle⟩, _⟩, _⟩ := hperform
    obtain rfl := (congrArg Prod.snd hhandle).symm
    obtain ⟨hview, _⟩ := handle_elsewhere hideal hclean helsewhere before
    refine ⟨trivial, ?_, ?_, hsending.sendable, ?_⟩
    · exact (member_elsewhere hideal hclean helsewhere before).trans hsending.member
    · exact (congrArg (fun view => view.file.map StoredFile.content) hview).trans hsending.kept_eq
    · rw [show World.entryAt context (handle context env effect before).2 path =
          before.entryAt context path from congrArg (View.entry context.crypto) hview]
      exact hsending.last_eq

/-- An operation on the path that does what its upload asks. -/
theorem Sending.next {path : String} {kept : Option Bytes} {last : Option (Cell String Bytes)}
    {action : SyncAction} {rest : List SyncAction} {before after : World}
    (hsending : Sending context path kept last (action :: rest) before)
    (hmember : Server.requireMember none after.server.vault context.userId = .ok ())
    (hfolder : after.device = before.device)
    (hentry : after.entryAt context path =
      gated "" (gatedOf kept (Sent.of action)) (before.entryAt context path)) :
    Sending context path kept last rest after := by
  refine ⟨hmember, ?_, ?_, ?_⟩
  · rw [hfolder]
    exact hsending.kept_eq
  · exact fun later hmem => hsending.sendable later (List.mem_cons_of_mem _ hmem)
  · rw [hentry]
    have hlast := hsending.last_eq
    rw [List.map_cons, List.flatMap_cons] at hlast
    unfold gated at hlast ⊢
    rwa [List.foldl_append] at hlast

theorem sendingRule (hideal : context.Ideal) (path : String) (kept : Option Bytes)
    (last : Option (Cell String Bytes)) :
    UploadRule (calm context choose) path
      (fun _ content => ∃ text, kept = some text ∧ context.crypto.decrypt content = .ok text)
      (fun rest _ => Sending context path kept last rest) where
  stable := fun rest _ => stable_sending hideal path kept last rest
  sealed := by
    intro left action right _ hpath hkind before reply after hsending hperform
    obtain ⟨⟨⟨env, hclean, hhandle⟩, _⟩, _⟩ := hperform
    refine ⟨trivial, ?_⟩
    have hkept := hsending.kept_eq
    simp only [handle] at hhandle
    cases hfile : before.device.folder[path]? with
    | none =>
        rw [hfile] at hhandle
        obtain ⟨rfl, rfl⟩ := Prod.mk.inj hhandle
        -- a file that is not there is not sent
        have hnone : kept = none := by simpa [contents, hfile] using hkept.symm
        refine ⟨hsending.member, hkept, ?_, ?_⟩
        · intro later hmem
          apply hsending.sendable
          rcases List.mem_append.mp hmem with hleft | hright
          · exact List.mem_append_left _ hleft
          · exact List.mem_append_right _ (List.mem_cons_of_mem _ hright)
        · have hlast := hsending.last_eq
          simp only [List.map_append, List.map_cons, List.flatMap_append,
            List.flatMap_cons] at hlast ⊢
          rwa [show gatedOf kept (Sent.of action) = [] by simp [gatedOf, Sent.of, hkind, hnone],
            List.nil_append] at hlast
    | some file =>
        rw [hfile] at hhandle
        simp only [hclean.onDevice] at hhandle
        obtain ⟨rfl, rfl⟩ := Prod.mk.inj hhandle
        refine ⟨⟨file.content, ?_, hideal.crypto.decrypt_encrypt env.nonce file.content⟩, hsending⟩
        simpa [contents, hfile] using hkept.symm
  put := by
    intro action rest _ content hpath hkind hfact before reply after hsending hperform
    refine ⟨trivial, ?_⟩
    obtain ⟨text, hkept, hdecrypt⟩ := hfact
    have hsendable := hsending.sendable action List.mem_cons_self
    obtain ⟨named, hhash⟩ : ∃ named, (action.localEntry.map FileEntry.hash).getD "" =
        context.crypto.contentHmac named := by
      rcases hsendable.kind with ⟨_, hnamed⟩ | hdelete
      · exact hnamed
      · rw [show action.kind = .deleteRemote from hdelete] at hkind
        cases hkind
    have hplain : Plain path := hpath ▸ hsendable.plain
    have hvalid : Server.validPath (context.crypto.pathToken path) = true :=
      hpath ▸ hsendable.token_valid
    rw [hhash] at hperform
    have hentry := entryAt_served_put hideal hplain hvalid hdecrypt hsending.member hperform
    obtain ⟨⟨⟨env, hclean, hhandle⟩, _⟩, _⟩ := hperform
    have hafter : _ = after := congrArg Prod.snd hhandle
    have hnext : Sending context path kept last rest after := by
      apply hsending.next
      · rw [← hafter]
        exact (served hideal hclean (show Plain (BatchOp.put path _ _ content).path from hplain)
          before.server).member.trans hsending.member
      · rw [← hafter]
        rfl
      · rw [hentry, hkept]
        simp only [gatedOf, Sent.of, hkind, hhash]
        rfl
    cases reply with
    | ok outcome => exact hnext
    | error error => exact hnext
  delete := by
    intro action rest _ hpath hkind before reply after hsending hperform
    refine ⟨trivial, ?_⟩
    have hsendable := hsending.sendable action List.mem_cons_self
    have hplain : Plain path := hpath ▸ hsendable.plain
    have hvalid : Server.validPath (context.crypto.pathToken path) = true :=
      hpath ▸ hsendable.token_valid
    have hentry := entryAt_served_delete hideal hplain hvalid hsending.member hperform
    obtain ⟨⟨⟨env, hclean, hhandle⟩, _⟩, _⟩ := hperform
    have hafter : _ = after := congrArg Prod.snd hhandle
    have hnext : Sending context path kept last rest after := by
      apply hsending.next
      · rw [← hafter]
        exact (served hideal hclean (show Plain (BatchOp.delete path _).path from hplain)
          before.server).member.trans hsending.member
      · rw [← hafter]
        rfl
      · rw [hentry]
        simp only [gatedOf, Sent.of, hkind]
        rfl
    cases reply with
    | ok outcome => exact hnext
    | error error => exact hnext

theorem calmNetwork : QuietNetwork (calm context choose) := by
  have hquiet := @quietNetwork context choose false (fun _ => .all .gone) ""
  exact ⟨hquiet.send, hquiet.receive, hquiet.read, hquiet.refusal⟩

/-- The upload phase, seen from one path. -/
theorem holds_runUploads_calm (hideal : context.Ideal) {uploads : List SyncAction}
    (hsendable : ∀ action ∈ uploads, Sendable context (Sent.of action)) (held : List String)
    {world : World}
    (hmember : Server.requireMember none world.server.vault context.userId = .ok ())
    (path : String) :
    Holds (calm context choose) (fun _ after =>
        contents after.device.folder path = contents world.device.folder path ∧
        after.entryAt context path =
          gated "" (((mine path uploads).map Sent.of).flatMap
            (gatedOf (contents world.device.folder path))) (world.entryAt context path))
      (runUploads uploads held) world := by
  have hstart :
      Sending context path (contents world.device.folder path) _ (mine path uploads) world :=
    ⟨hmember, rfl, fun action hmem => hsendable action (List.mem_of_mem_filter hmem), rfl⟩
  have hsent := (sendingRule hideal path _ _).holds_runUploads (@calmNetwork context choose)
    (fun action hmem => (hsendable action hmem).plain)
    (fun action hmem _ => (hsendable action hmem).kind.imp And.left id) held hstart
  have hquiet := @quietNetwork context choose false (fun _ => .all .gone) ""
  have hmild : Holds (calm context choose)
      (fun outcome _ => outcome.failures.any SyncFailure.fatal = false) (runUploads uploads held)
      world := by
    apply holds_runUploads_mild ⟨hquiet.send, hquiet.receive, hquiet.read, hquiet.refusal⟩
    intro op before error after hperform
    obtain ⟨_, hstatus⟩ := undisturbed_refusal hperform
    simp only [List.mem_cons, List.not_mem_nil, or_false] at hstatus
    rcases hstatus with hstatus | hstatus | hstatus | hstatus <;> rw [hstatus] <;> rfl
  apply (hsent.and hmild).mono
  intro outcome after hboth
  obtain ⟨⟨rest, _, hsending, _, hrest⟩, hfatal⟩ := hboth
  rw [hfatal] at hrest
  obtain rfl := hrest.resolve_right (by simp)
  exact ⟨hsending.kept_eq, hsending.last_eq⟩

theorem handle_books {effect : Effect} (hbooks : effect.Books) (env : Env) (world : World) :
    (handle context env effect world).2.server = world.server ∧
      (handle context env effect world).2.device.folder = world.device.folder := by
  have hchange : ∀ device : Device, device.folder = world.device.folder →
      (env.change world device).2.server = world.server ∧
        (env.change world device).2.device.folder = world.device.folder := by
    intro device hfolder
    rcases env.change_cases world device with hdone | ⟨_, hfailed⟩
    · rw [hdone]
      exact ⟨rfl, hfolder⟩
    · rw [hfailed]
      exact ⟨rfl, rfl⟩
  cases effect with
  | loadRemoteCache =>
      simp only [handle]
      split <;> exact ⟨rfl, rfl⟩
  | getManifest ifNoneMatch => exact ⟨rfl, rfl⟩
  | saveRemoteCache cache => exact hchange _ rfl
  | loadBase => exact ⟨rfl, rfl⟩
  | saveBase manifest => exact hchange _ rfl
  | _ => exact hbooks.elim

theorem holds_checkpoint_calm (holdBack : List String) (world : World) :
    Holds (calm context choose)
      (fun _ after => after.server = world.server ∧ after.device.folder = world.device.folder)
      (checkpoint context.crypto holdBack) world := by
  have hholds : Holds (calm context choose)
      (fun _ after =>
        (after.server = world.server ∧ after.device.folder = world.device.folder) ∧ True)
      (checkpoint context.crypto holdBack) world := by
    apply (checkpoint_books context.crypto holdBack).holds
    · intro before after hsame hbefore
      exact (show before = after from hsame) ▸ hbefore
    · intro effect hbooks before reply after hbefore hperform
      obtain ⟨⟨⟨env, _, hhandle⟩, _⟩, _⟩ := hperform
      obtain rfl := (congrArg Prod.snd hhandle).symm
      obtain ⟨hserver, hfolder⟩ := @handle_books context effect hbooks env before
      exact ⟨trivial, hserver.trans hbefore.1, hfolder.trans hbefore.2⟩
    · exact ⟨rfl, rfl⟩
  exact hholds.mono fun _ _ hboth => hboth.1

/-! ## The round -/

/-- The contents of the folder after a round. -/
def contentsAfter (context : Context) (plan : SyncPlan) (resolutions : List ConflictResolution)
    (world : World) : String → Option Bytes :=
  written (plan.conflicts.flatMap (writesOf (world.text context) resolutions))
    (contents world.device.folder)

/-- All uploads of a round, in order. -/
def sentsOf (context : Context) (plan : SyncPlan) (resolutions : List ConflictResolution)
    (world : World) : List Sent :=
  plan.upload.map Sent.of ++
    plan.conflicts.flatMap (sentOf context.crypto (world.text context) resolutions)

/-- What a round asks of the row of a path. -/
def gatesAt (context : Context) (plan : SyncPlan) (resolutions : List ConflictResolution)
    (world : World) (path : String) : List (Gated String Bytes) :=
  ((sentsOf context plan resolutions world).filter fun sent => sent.path = path).flatMap
    (gatedOf (contentsAfter context plan resolutions world path))

/-- A round comes to its writes and its gated writes. -/
theorem holds_completeSync_calm (hideal : context.Ideal) {plan : SyncPlan} {world : World}
    (hmember : Server.requireMember none world.server.vault context.userId = .ok ())
    (hplain : ∀ conflict ∈ plan.conflicts, Plain conflict.path)
    (hsendable : ∀ sent ∈ sentsOf context plan resolutions world, Sendable context sent)
    (path : String) :
    Holds (calm context choose) (fun result after => ∀ done, result = .ok done →
        contents after.device.folder path = contentsAfter context plan resolutions world path ∧
        after.entryAt context path =
          gated "" (gatesAt context plan resolutions world path) (world.entryAt context path))
      (completeSync context.crypto plan resolutions) world := by
  rw [completeSync, holds_bind]
  apply (holds_applyResolutions_calm hplain ⟨plan.upload, []⟩ world).mono
  intro result resolvedWorld hresolved
  cases result with
  | error error =>
      intro done hdone
      cases hdone
  | ok resolved =>
      obtain ⟨hwrote, huploads⟩ := hresolved resolved rfl
      have hsents : resolved.uploads.map Sent.of = sentsOf context plan resolutions world :=
        huploads
      have hsend : ∀ action ∈ resolved.uploads, Sendable context (Sent.of action) := by
        intro action hmem
        apply hsendable
        rw [← hsents]
        exact List.mem_map_of_mem hmem
      have hmine : (mine path resolved.uploads).map Sent.of =
          (sentsOf context plan resolutions world).filter fun sent => sent.path = path := by
        rw [← hsents, List.filter_map]
        rfl
      have hentry : resolvedWorld.entryAt context path = world.entryAt context path := by
        simp only [World.entryAt, View.entry, World.view, hwrote.server]
      have hcontents : contents resolvedWorld.device.folder path =
          contentsAfter context plan resolutions world path := congrFun hwrote.contents_eq path
      have hmember :
          Server.requireMember none resolvedWorld.server.vault context.userId = .ok () := by
        rw [hwrote.server]
        exact hmember
      -- the answers are in; only the uploads touch the rows
      simp only [holds_bind]
      apply (holds_runUploads_calm hideal hsend _ hmember path).mono
      intro outcome uploaded hsent
      rw [hcontents, hmine, hentry] at hsent
      split
      next =>
        intro done _
        exact hsent
      next =>
        rw [holds_bind]
        -- the checkpoint moves neither contents nor rows
        apply (holds_checkpoint_calm outcome.holdBack uploaded).mono
        intro answer after hsame
        have hafter : contents after.device.folder path = contents uploaded.device.folder path ∧
            after.entryAt context path = uploaded.entryAt context path := by
          simp only [World.entryAt, View.entry, World.view, hsame.1, hsame.2, and_self]
        rw [← hafter.1, ← hafter.2] at hsent
        cases answer with
        | error error =>
            intro done _
            exact hsent
        | ok value =>
            intro done _
            exact hsent

/-- The writes and the gated writes of a round have been done, and nothing else. -/
structure DoneBy (context : Context) (plan : SyncPlan) (resolutions : List ConflictResolution)
    (world after : World) : Prop where
  contents_eq : ∀ path,
    contents after.device.folder path = contentsAfter context plan resolutions world path
  entryAt_eq : ∀ path, after.entryAt context path =
    gated "" (gatesAt context plan resolutions world path) (world.entryAt context path)

theorem doneBy_of_reaches (hideal : context.Ideal) {plan : SyncPlan} {world after : World}
    (hmember : Server.requireMember none world.server.vault context.userId = .ok ())
    (hplain : ∀ conflict ∈ plan.conflicts, Plain conflict.path)
    (hsendable : ∀ sent ∈ sentsOf context plan resolutions world, Sendable context sent)
    {result : SyncResult} (hrun : Prog.Reaches (Undisturbed context choose false)
      (completeSync context.crypto plan resolutions) world (.pure (.ok result)) after) :
    DoneBy context plan resolutions world after := by
  have hafter := fun path => (holds_completeSync_calm hideal hmember hplain hsendable path).reaches
    (fun _ => rfl) hrun result rfl
  exact ⟨fun path => (hafter path).1, fun path => (hafter path).2⟩

end Calm

end ObSink.Engine
