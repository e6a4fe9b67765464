import ObSink.Engine.Batches
import ObSink.Engine.Honest

/-! # A device and its server in good order

What a cycle relies on, path by path: an honest row, a file name with one
spelling, and a manifest cache that is right whenever its tag is current. With
nothing failing, an operation on another path leaves all of it as it is.
-/

namespace ObSink.Engine

/-- What the three sides have at a path. -/
structure View where
  file : Option StoredFile
  base : Option FileEntry
  row : Option FileEntry
  blob : Option Bytes
  maxFileSize : Nat

def World.view (context : Context) (world : World) (path : String) : View where
  file := world.device.folder[path]?
  base := world.device.base[path]?
  row := remoteAt context world.server path
  blob := contentAt context world.server path
  maxFileSize := world.server.vault.maxFileSize

/-- A cached manifest bears the tag of a revision; if that is the current one,
it says of the path what the server says. -/
def CacheFits (context : Context) (world : World) (path : String) : Prop :=
  ∀ cache etag, world.device.cache = some cache → cache.etag = some etag →
    ∃ revision, etag = Server.etagOf revision ∧ revision ≤ world.server.vault.revision ∧
      (revision = world.server.vault.revision →
        cache.manifest[path]? = remoteAt context world.server path)

structure SoundAt (context : Context) (path : String) (world : World) : Prop where
  member : Server.requireMember none world.server.vault context.userId = .ok ()
  noStrays : NoStrays context world.server
  row : ∀ entry, remoteAt context world.server path = some entry →
    HonestRow context world.server path entry
  named : ∀ file, world.device.folder[path]? = some file →
    Plain path ∧ Server.validPath (context.crypto.pathToken path) = true
  cached : CacheFits context world path

/-- In good order at every path. -/
def Sound (context : Context) (world : World) : Prop := ∀ path, SoundAt context path world

theorem Sound.honest {context : Context} {world : World} (hsound : Sound context world) :
    Honest context world.server where
  member := (hsound "").member
  noStrays := (hsound "").noStrays
  row := fun path => (hsound path).row

theorem Sound.plainFolder {context : Context} {world : World} (hsound : Sound context world) :
    PlainFolder world.device.folder :=
  fun path file hfile => ((hsound path).named file hfile).1

/-! ## The server's side of an operation -/

theorem callOf_path (context : Context) (env : Env) (op : BatchOp) :
    (callOf context env op).path = context.crypto.pathToken op.path := by
  cases op <;> rfl

/-- What a server did for one operation, seen from every path. -/
structure ServedBy (context : Context) (op : BatchOp) (server after : Server.State) : Prop where
  member : Server.requireMember none after.vault context.userId =
    Server.requireMember none server.vault context.userId
  maxFileSize : after.vault.maxFileSize = server.vault.maxFileSize
  noStrays : NoStrays context server → NoStrays context after
  elsewhere : ∀ path, path ≠ op.path → remoteAt context after path = remoteAt context server path ∧
    contentAt context after path = contentAt context server path
  revision : after = server ∨ after.vault.revision = server.vault.revision + 1

theorem served {context : Context} (hideal : context.Ideal) {env : Env}
    (hclean : env.Clean) {op : BatchOp} (hplain : Plain op.path) (server : Server.State) :
    ServedBy context op server ((callOf context env op).serve context.server server).2 := by
  rcases Server.serve_cases context.server hideal.aead hideal.pathName (callOf context env op)
    server hclean.2 with ⟨hsame, _⟩ | ⟨entry, _, hvault, _, hbody⟩
  · rw [hsame]
    exact ⟨rfl, rfl, id, fun _ _ => ⟨rfl, rfl⟩, Or.inl rfl⟩
  · rw [callOf_path] at hvault hbody
    have htoken : ∀ path, Plain path → path ≠ op.path →
        context.crypto.pathToken path ≠ context.crypto.pathToken op.path :=
      fun path hpath hne heq => hne (hideal.crypto.pathToken_inj hpath hplain heq)
    refine ⟨?_, ?_, ?_, ?_, Or.inr ?_⟩
    · rw [hvault]
      rfl
    · rw [hvault]
      rfl
    · intro hstrays token row hrow
      rw [hvault] at hrow
      by_cases heq : context.crypto.pathToken op.path = token
      · exact ⟨op.path, hplain, heq⟩
      · have hold := Std.ExtTreeMap.getElem?_insert_of_ne server.vault.files entry heq
        exact hstrays token row (hold.symm.trans hrow)
    · intro path hne
      unfold remoteAt contentAt
      by_cases hpath : Plain path
      · rw [if_pos hpath, if_pos hpath, if_pos hpath, if_pos hpath]
        refine ⟨?_, hbody _ (htoken path hpath hne)⟩
        rw [hvault]
        exact Std.ExtTreeMap.getElem?_insert_of_ne _ entry (htoken path hpath hne).symm
      · rw [if_neg hpath, if_neg hpath, if_neg hpath, if_neg hpath]
        exact ⟨rfl, rfl⟩
    · rw [hvault]
      rfl

theorem HonestRow.of_same {context : Context} {server after : Server.State} {path : String}
    {entry : FileEntry} (hrow : HonestRow context server path entry)
    (hsame : contentAt context after path = contentAt context server path) :
    HonestRow context after path entry :=
  ⟨hrow.decrypts, hrow.encPath_ne, hrow.token_valid, by rw [hsame]; exact hrow.hashed⟩

/-- A cache stays right when the server goes on. -/
theorem CacheFits.served {context : Context} {world : World} {path : String}
    (hcache : CacheFits context world path) {after : Server.State}
    (hrevision : after = world.server ∨
      after.vault.revision = world.server.vault.revision + 1) :
    CacheFits context { world with server := after } path := by
  intro cache etag hsome hetag
  obtain ⟨revision, heq, hle, hmirror⟩ := hcache cache etag hsome hetag
  refine ⟨revision, heq, ?_, ?_⟩
  · rcases hrevision with rfl | hnext
    · exact hle
    · simp only [hnext]
      omega
  · intro hcurrent
    rcases hrevision with rfl | hnext
    · exact hmirror hcurrent
    · simp only [hnext] at hcurrent
      omega

/-- An operation of a batch leaves every other path as it is. -/
theorem SoundAt.served {context : Context} {world : World} {path : String} {op : BatchOp}
    {after : Server.State} (hsound : SoundAt context path world)
    (hserved : ServedBy context op world.server after) (hne : path ≠ op.path) :
    SoundAt context path { world with server := after } := by
  obtain ⟨hrow, hblob⟩ := hserved.elsewhere path hne
  refine ⟨hserved.member.trans hsound.member, hserved.noStrays hsound.noStrays, ?_, hsound.named,
    hsound.cached.served hserved.revision⟩
  intro entry hentry
  exact (hsound.row entry (hrow ▸ hentry)).of_same hblob

/-! ## The path of an operation -/

/-- The row and the content an accepted operation leaves. -/
theorem served_own {context : Context} (hideal : context.Ideal) {env : Env} (hclean : env.Clean)
    {op : BatchOp} (hplain : Plain op.path) {server : Server.State} {entry : FileEntry}
    (hwritten : ((callOf context env op).serve context.server server).1 = .ok (.written entry)) :
    let after := ((callOf context env op).serve context.server server).2
    remoteAt context after op.path = some entry ∧
      contentAt context after op.path = (callOf context env op).request.content ∧
      (callOf context env op).request.Writes (remoteAt context server op.path) env.now entry := by
  have hwrites := Server.writes_of_serve hwritten
  rcases Server.serve_cases context.server hideal.aead hideal.pathName (callOf context env op)
    server hclean.2 with ⟨_, hnot⟩ | ⟨found, hfound, hvault, hbody, _⟩
  · exact absurd hwritten (hnot entry)
  · rw [hwritten] at hfound
    obtain rfl : entry = found := by simpa using hfound
    rw [callOf_path] at hwrites hvault hbody
    refine ⟨?_, ?_, ?_⟩
    · rw [remoteAt_of_plain _ _ hplain, hvault]
      simp [Server.Vault.upsertEntry]
    · rw [contentAt, if_pos hplain]
      exact hbody
    · rw [remoteAt_of_plain _ _ hplain]
      exact hwrites

/-- What an accepted operation leaves is an honest row. -/
theorem HonestRow.put {context : Context} (hideal : context.Ideal) {server : Server.State}
    {path : String} (hplain : Plain path)
    (hvalid : Server.validPath (context.crypto.pathToken path) = true)
    {nonce : Aead.Nonce} {parentHash : Option String} {content plaintext : Bytes}
    (hdecrypt : context.crypto.decrypt content = .ok plaintext) {current : Option FileEntry}
    {now : Nat} {entry : FileEntry}
    (hwrites : (wireOperation context.crypto nonce (.put path parentHash
      (context.crypto.contentHmac plaintext) content)).Writes current now entry)
    (hcontent : contentAt context server path = some content) :
    entry.deleted = false ∧ entry.hash = context.crypto.contentHmac plaintext ∧
      HonestRow context server path entry := by
  obtain ⟨⟨contentHash, hhash, rfl⟩, _⟩ := hwrites
  have hkept : contentHash = context.crypto.contentHmac plaintext := by
    simp only [Server.PutParams.hash, Option.map_some, hideal.crypto.trim_contentHmac,
      Option.filter, decide_not, Bool.not_eq_eq_eq_not, Bool.not_true, decide_eq_false_iff_not,
      hideal.crypto.contentHmac_ne_empty, not_false_eq_true, ↓reduceIte, Option.some.injEq] at hhash
    exact hhash.symm
  have henc := hideal.crypto.encryptPath_ne_empty nonce path
  have hencPath : (Server.putEntry
      { path := context.crypto.pathToken path, parentHash := some (parentHash.getD "")
        contentHash := some (context.crypto.contentHmac plaintext)
        encPath := some (context.crypto.encryptPath nonce path) } contentHash current now
        content.length).encPath = context.crypto.encryptPath nonce path := by
    simp [Server.putEntry, Option.filter, henc]
  refine ⟨rfl, hkept, ?_, ?_, hvalid, plaintext, hkept, ?_⟩
  · rw [hencPath, hideal.crypto.decryptPath_encryptPath, hplain.normalizePath]
  · rw [hencPath]
    exact henc
  · exact fun _ => ⟨content, hcontent, hdecrypt⟩

/-- A delete of an honest row leaves an honest tombstone. -/
theorem HonestRow.tombstone {context : Context} {server after : Server.State} {path : String}
    {row : FileEntry} (hrow : HonestRow context server path row) (now : Nat) :
    HonestRow context after path (Server.tombstone (some row) now) := by
  obtain ⟨content, hhash, _⟩ := hrow.hashed
  refine ⟨hrow.decrypts, hrow.encPath_ne, hrow.token_valid, content, hhash, ?_⟩
  intro hlive
  cases hlive

/-- Good order after an operation on the path itself. -/
theorem SoundAt.served_own {context : Context} {world : World} {path : String} {op : BatchOp}
    {after : Server.State} (hsound : SoundAt context path world)
    (hserved : ServedBy context op world.server after) {entry : FileEntry}
    (hremote : remoteAt context after path = some entry)
    (hrow : HonestRow context after path entry) :
    SoundAt context path { world with server := after } := by
  refine ⟨hserved.member.trans hsound.member, hserved.noStrays hsound.noStrays, ?_, hsound.named,
    hsound.cached.served hserved.revision⟩
  intro found hfound
  rw [hremote] at hfound
  exact Option.some.inj hfound ▸ hrow

/-! ## Operations elsewhere -/

/-- Two devices that differ at other files only. -/
theorem SoundAt.device {context : Context} {world : World} {path : String} {device : Device}
    (hsound : SoundAt context path world)
    (hfile : device.folder[path]? = world.device.folder[path]?)
    (hcache : device.cache = world.device.cache) :
    SoundAt context path { world with device } := by
  refine ⟨hsound.member, hsound.noStrays, hsound.row, ?_, ?_⟩
  · intro file hsome
    exact hsound.named file (hfile.symm.trans hsome)
  · intro cache etag hsome
    exact hsound.cached cache etag (hcache.symm.trans hsome)

theorem Env.Clean.onDevice {env : Env} (hclean : env.Clean) {α : Type} (value : α) :
    env.onDevice value = .ok value := by
  simp [Env.onDevice, hclean.1]

theorem Env.Clean.change {env : Env} (hclean : env.Clean) (world : World) (device : Device) :
    env.change world device = (.ok (), { world with device }) := by
  simp [Env.change, hclean.onDevice]

/-- With nothing failing, an operation elsewhere leaves the path as it is. -/
theorem handle_elsewhere {context : Context} (hideal : context.Ideal) {env : Env}
    (hclean : env.Clean) {path : String} {effect : Effect} (helsewhere : effect.Elsewhere path)
    (world : World) :
    (handle context env effect world).2.view context path = world.view context path ∧
      (SoundAt context path world → SoundAt context path (handle context env effect world).2) := by
  have hdevice : ∀ device : Device, device.folder[path]? = world.device.folder[path]? →
      device.base = world.device.base → device.cache = world.device.cache →
      World.view context { world with device } path = world.view context path ∧
        (SoundAt context path world → SoundAt context path { world with device }) := by
    intro device hfile hbase hcache
    exact ⟨by simp only [World.view, hfile, hbase], fun hsound => hsound.device hfile hcache⟩
  cases effect with
  | deleteLocalFile other =>
      simp only [handle]
      cases world.device.folder[other]? with
      | none => exact ⟨rfl, id⟩
      | some file =>
          rw [hclean.change]
          exact hdevice _ (Std.ExtTreeMap.getElem?_erase_of_ne _ helsewhere) rfl rfl
  | writeFile other content =>
      simp only [handle, hclean.change]
      exact hdevice _ (Std.ExtTreeMap.getElem?_insert_of_ne _ _ helsewhere) rfl rfl
  | applyOp op =>
      obtain ⟨hplain, hne⟩ := helsewhere
      have hserved := served hideal hclean hplain world.server
      obtain ⟨hrow, hblob⟩ := hserved.elsewhere path (Ne.symm hne)
      refine ⟨?_, fun hsound => hsound.served hserved (Ne.symm hne)⟩
      simp only [handle, World.view, hrow, hblob, hserved.maxFileSize]
  | statFile other =>
      simp only [handle]
      cases world.device.folder[other]? <;> exact ⟨rfl, id⟩
  | sealFile other =>
      simp only [handle]
      cases world.device.folder[other]? <;> exact ⟨rfl, id⟩
  | getFile _ => exact ⟨rfl, id⟩
  | pick => exact ⟨rfl, id⟩
  | ask _ => exact ⟨rfl, id⟩
  | sendBatch => exact ⟨rfl, id⟩
  | receiveBatch => exact ⟨rfl, id⟩
  | readBatch => exact ⟨rfl, id⟩
  | loadLocalState => exact helsewhere.elim
  | loadRemoteCache => exact helsewhere.elim
  | getManifest _ => exact helsewhere.elim
  | saveRemoteCache _ => exact helsewhere.elim
  | loadBase => exact helsewhere.elim
  | saveBase _ => exact helsewhere.elim

/-! ## A small device for concrete runs -/

/-- The user leaves other files in the folder. -/
def World.edit (world : World) (folder : Folder) : World :=
  { world with device := { world.device with folder } }

theorem Sound.edit {context : Context} {world : World} (hsound : Sound context world)
    {folder : Folder}
    (hnamed : ∀ path file, folder[path]? = some file →
      Plain path ∧ Server.validPath (context.crypto.pathToken path) = true) :
    Sound context (world.edit folder) :=
  fun path => { hsound path with named := hnamed path }

/-- A device with one file. -/
def oneFile (name : String) (content : Bytes) : Folder := (∅ : Folder).insert name ⟨content, 1⟩

theorem oneFile_named {context : Context} {name : String} (content : Bytes)
    (hname : Plain name ∧ Server.validPath (context.crypto.pathToken name) = true)
    (path : String) (file : StoredFile) (hfile : (oneFile name content)[path]? = some file) :
    Plain path ∧ Server.validPath (context.crypto.pathToken path) = true := by
  by_cases heq : name = path
  · exact heq ▸ hname
  · rw [oneFile, Std.ExtTreeMap.getElem?_insert_of_ne _ _ heq] at hfile
    simp at hfile

/-- A device that never synced and a vault with no files. -/
def emptyWorld : World where
  device := { folder := ∅, base := ∅, cache := none }
  server := { vault := Server.emptyVault, blobs := .empty }

theorem emptyWorld_sound {context : Context} (huser : context.userId = "user_1") :
    Sound context emptyWorld := by
  intro path
  refine ⟨by rw [huser]; decide, ?_, ?_, ?_, ?_⟩
  · intro token entry hentry
    simp [emptyWorld, Server.emptyVault] at hentry
  · intro entry hentry
    simp [remoteAt, emptyWorld, Server.emptyVault] at hentry
  · intro file hfile
    simp [emptyWorld] at hfile
  · intro cache etag hcache
    cases hcache

/-- A device with one new file and a vault with none. -/
def sampleWorld : World := emptyWorld.edit (oneFile "note" [104, 105])

theorem sampleWorld_sound : Sound sampleContext sampleWorld :=
  (emptyWorld_sound rfl).edit (oneFile_named _ ⟨by decide, by decide⟩)

end ObSink.Engine
