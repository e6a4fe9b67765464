import ObSink.Lib.Pool
import ObSink.Lib.Runs
import ObSink.Server.Account
import ObSink.Server.Serial

/-! # The vaults of a server

Vaults are created, written, deleted and swept by requests that run at the
same time (`server/src/routes/vaults.rs`, `files.rs`, `me.rs`,
`retention.rs`). A step is one database statement of one request, its commit,
one change of blobs, or the removal of one directory. Postgres runs at READ
COMMITTED: a statement sees the committed rows, and waits for a lock that
another transaction holds. A blob directory of a vault is a part of its blob
store.
-/

namespace ObSink.Server.Storage

open Account (BodyField decodeField)

/-- The limits of a server, and Postgres' hash of a text. -/
structure StorageConfig extends Config where
  maxFileBytes : Nat
  maxVaultsPerUser : Nat
  hashtext : String → Int

def orphanGraceSecs : Nat := 60 * 60

/-! ## Rows and directories -/

/-- A row of `vaults`, with its rows of `files`. -/
structure VaultRow where
  owner : String
  vault : Vault

/-- The committed rows; `hasKey` says of an account that exists whether its
passphrase is set. -/
structure Db where
  vaults : List VaultRow
  hasKey : String → Option Bool

def Db.find (db : Db) (vaultId : String) : Option VaultRow :=
  db.vaults.find? (·.vault.id = vaultId)

def Db.has (db : Db) (vaultId : String) : Bool := db.vaults.any (·.vault.id = vaultId)

def Db.owned (db : Db) (owner : String) : List VaultRow := db.vaults.filter (·.owner = owner)

/-- A vault has one directory in each place. -/
inductive Place where
  | live
  | history (tier : Tier)
  deriving DecidableEq, Repr

abbrev Dir := Place × String

/-- The directories of a vault, in the order in which they are removed. -/
def dirsOf (vaultId : String) : List Dir :=
  [(.live, vaultId), (.history .versions, vaultId), (.history .trash, vaultId)]

abbrev Blobs := String → BlobStore

/-- `remove_dir_if_present` -/
def removeDir (blobs : Blobs) (dir : Dir) : Blobs :=
  Function.update blobs dir.2 <|
    match dir.1 with
    | .live => { blobs dir.2 with live := fun _ => none }
    | .history tier =>
        { blobs dir.2 with history := Function.update (blobs dir.2).history tier fun _ => ∅ }

/-! ## What is under way -/

/-- The next statement of a write, its blob change, or its commit. -/
inductive WritePhase where
  /-- `require_member` -/
  | member
  /-- `SELECT max_file_size FROM vaults .. FOR UPDATE` -/
  | lock
  /-- `current_entry` -/
  | entry
  /-- `SELECT SUM(size) FROM files` -/
  | used
  | blobs
  /-- `upsert_entry` -/
  | upsert
  /-- `bump_revision` -/
  | bump
  | commit
  deriving DecidableEq, Repr

/-- `apply_put` or `apply_delete` -/
structure WriteTx where
  vaultId : String
  call : Call
  phase : WritePhase := .member
  maxFileSize : Nat := 0
  current : Option FileEntry := none
  /-- The row it writes. -/
  entry : Option FileEntry := none
  undo : Option BlobUndo := none

structure CreateBody where
  id : Option String
  name : Option String
  maxFileSize : Option Nat
  wrappedKey : BodyField UInt8

inductive CreatePhase where
  /-- `pg_advisory_xact_lock` -/
  | advisory
  | hasKey
  /-- `SELECT COUNT(*) FROM vaults WHERE owner = $1` -/
  | count
  /-- `SELECT 1 FROM vaults WHERE id = $1` -/
  | taken
  | insert
  /-- `INSERT INTO vault_members` -/
  | member
  | commit
  deriving DecidableEq, Repr

/-- `create` -/
structure CreateTx where
  owner : String
  id : String
  maxFileSize : Nat
  now : Nat
  phase : CreatePhase := .advisory

inductive AccountPhase where
  /-- `DELETE FROM vaults WHERE owner = $1 RETURNING id` -/
  | vaults
  /-- `DELETE FROM users`, which takes along every vault the account owns. -/
  | user
  | commit
  deriving DecidableEq, Repr

/-- `delete_account` -/
structure AccountTx where
  userId : String
  phase : AccountPhase := .vaults
  /-- The ids the first statement returned. -/
  returned : List String := []
  /-- The rows it has deleted. -/
  deleted : List String := []

inductive Job where
  | write (tx : WriteTx)
  | create (tx : CreateTx)
  | account (tx : AccountTx)
  /-- `delete_vault`; `owner` once `require_owner` let it pass. -/
  | deleteVault (userId vaultId : String) (owner : Bool)
  /-- `BlobStore::delete_vault`, with the directories that are left. -/
  | remove (dirs : List Dir)
  /-- `orphan_candidates`, with those found so far. -/
  | walk (found : List Dir)
  /-- `sweep_orphans` checks the row of the next candidate. -/
  | check (candidates : List Dir)
  /-- `sweep_orphans` found no row. -/
  | sweep (dir : Dir) (candidates : List Dir)

/-- The transaction has locked or deleted the row of a vault. -/
def Job.locksRow (vaultId : String) : Job → Bool
  | .write tx => tx.vaultId = vaultId && tx.phase ≠ .member && tx.phase ≠ .lock
  | .account tx => tx.deleted.contains vaultId
  | _ => false

def Job.locksAdvisory (config : StorageConfig) (owner : String) : Job → Bool
  | .create tx => config.hashtext tx.owner = config.hashtext owner && tx.phase ≠ .advisory
  | _ => false

/-- The transaction has inserted the row of a vault. -/
def Job.inserts (test : CreateTx → Bool) : Job → Bool
  | .create tx => test tx && (tx.phase = .member || tx.phase = .commit)
  | _ => false

/-- The transaction has deleted an account. -/
def Job.deletesUser (userId : String) : Job → Bool
  | .account tx => tx.userId = userId && tx.phase = .commit
  | _ => false

/-- The locks that other transactions hold. -/
structure Held where
  row : String → Bool
  advisory : String → Bool
  insertedId : String → Bool
  insertedFor : String → Bool
  user : String → Bool

/-- A step of a job: it goes on or ends, maybe with an error. -/
structure Ran where
  job : Option Job
  db : Db
  blobs : Blobs
  error : Option ApiError := none

/-! ## Writes -/

def notFound : ApiError := .status 404 "vault not found"

def Db.files (db : Db) (vaultId : String) : Manifest :=
  ((db.find vaultId).map (·.vault.files)).getD ∅

/-- The checks of `apply_put` and `apply_delete` on the request alone. -/
def WriteTx.checkRequest (tx : WriteTx) : Except ApiError Unit :=
  if validPath tx.call.path = false then .error (.status 400 "invalid path")
  else match tx.call.request with
    | .put params _ =>
        if params.hash = none then .error (.status 400 "missing X-Content-Hash header") else .ok ()
    | .delete _ _ => .ok ()

/-- The row a write has come to, if there is one to write. -/
def WriteTx.admit (tx : WriteTx) : Except ApiError (Option FileEntry) :=
  match tx.call.request with
  | .put params body =>
      match gatePut tx.current params (params.hash.getD "") with
      | .error error => .error error
      | .ok .alreadyThere => .ok none
      | .ok (.write contentHash current) =>
          .ok (some (putEntry params contentHash current tx.call.now body.length))
  | .delete path parentHash =>
      match gateDelete tx.current path parentHash with
      | .error error => .error error
      | .ok current => .ok (some (tombstone current tx.call.now))

def Db.upsert (db : Db) (vaultId path : String) (entry : FileEntry) (now : Nat) : Db :=
  { db with vaults := db.vaults.map fun row =>
      if row.vault.id = vaultId then { row with vault := row.vault.upsertEntry path entry now }
      else row }

def WriteTx.run (config : StorageConfig) (held : Held) (db : Db) (blobs : Blobs) (tx : WriteTx) :
    Option Ran :=
  let goOn (tx : WriteTx) := some ⟨some (.write tx), db, blobs, none⟩
  let refuse (error : ApiError) := some ⟨none, db, blobs, some error⟩
  let admitted (tx : WriteTx) : Option Ran :=
    match tx.admit with
    | .error error => refuse error
    | .ok none => some ⟨none, db, blobs, none⟩
    | .ok (some entry) => goOn { tx with phase := .blobs, entry := some entry }
  match tx.phase with
  | .member =>
      match tx.checkRequest with
      | .error error => refuse error
      | .ok () =>
          if validVaultId tx.vaultId && (db.find tx.vaultId).any (tx.call.userId ∈ ·.vault.members)
          then goOn { tx with phase := .lock }
          else refuse notFound
  | .lock =>
      if held.row tx.vaultId then none
      else match db.find tx.vaultId with
        | none => refuse notFound
        | some row => goOn { tx with phase := .entry, maxFileSize := row.vault.maxFileSize }
  | .entry =>
      let tx := { tx with current := (db.files tx.vaultId)[tx.call.path]? }
      match tx.call.request with
      | .put _ body =>
          if body.length > tx.maxFileSize then refuse (.status 413 "file too large")
          else goOn { tx with phase := .used }
      | .delete _ _ => admitted tx
  | .used =>
      match tx.call.request with
      | .put params body =>
          if usedBytes (db.files tx.vaultId) params.path + body.length > config.maxVaultBytes then
            refuse (.status 507 quotaMessage)
          else admitted tx
      | .delete _ _ => none
  | .blobs =>
      match db.find tx.vaultId with
      | none => none
      | some row =>
          match tx.call.moveBlob config.toConfig tx.current ⟨row.vault, blobs tx.vaultId⟩ with
          | (.error message, store) =>
              some ⟨none, db, Function.update blobs tx.vaultId store, some (.internal message)⟩
          | (.ok undo, store) =>
              some ⟨some (.write { tx with phase := .upsert, undo := some undo }), db,
                Function.update blobs tx.vaultId store, none⟩
  | .upsert => goOn { tx with phase := .bump }
  | .bump => goOn { tx with phase := .commit }
  | .commit =>
      match tx.entry with
      | none => none
      | some entry => some ⟨none, db.upsert tx.vaultId tx.call.path entry tx.call.now, blobs, none⟩

/-- A statement of a write failed: what it did to the blobs is undone. -/
def WriteTx.undone (tx : WriteTx) (blobs : Blobs) : Blobs :=
  match tx.undo with
  | none => blobs
  | some undo => Function.update blobs tx.vaultId ((blobs tx.vaultId).undo undo)

/-! ## Creating and deleting vaults -/

/-- What `create` takes from its body; `minted` is the id the server makes up. -/
def CreateBody.check (config : StorageConfig) (body : CreateBody) (minted : String) :
    Except ApiError (String × Nat) :=
  if Text.trim (body.name.getD "") = "" then .error (.status 400 "vault name is required")
  else
    match decodeField body.wrappedKey "wrapped_key" wrappedKeyLen with
    | .error error => .error error
    | .ok _ =>
        let maxFileSize := min (body.maxFileSize.getD config.maxFileBytes) config.maxFileBytes
        match (body.id.map Text.trim).filter (· ≠ "") with
        | none => .ok (minted, maxFileSize)
        | some id =>
            if validVaultId id then .ok (id, maxFileSize)
            else .error (.status 400 "id must be vault_ followed by a UUID")

def CreateTx.row (tx : CreateTx) : VaultRow where
  owner := tx.owner
  vault := {
    id := tx.id
    members := [tx.owner]
    maxFileSize := tx.maxFileSize
    files := ∅
    revision := 0
    lastWrite := tx.now }

def CreateTx.run (config : StorageConfig) (held : Held) (db : Db) (blobs : Blobs)
    (tx : CreateTx) : Option Ran :=
  let goOn (phase : CreatePhase) :=
    some ⟨some (.create { tx with phase := phase }), db, blobs, none⟩
  let refuse (error : ApiError) := some ⟨none, db, blobs, some error⟩
  match tx.phase with
  | .advisory => if held.advisory tx.owner then none else goOn .hasKey
  | .hasKey =>
      match db.hasKey tx.owner with
      | none => refuse (.internal "no rows returned")
      | some false => refuse (.status 400 "set a passphrase first")
      | some true => goOn .count
  | .count =>
      if config.maxVaultsPerUser ≤ (db.owned tx.owner).length then
        refuse (.status 403
          ("vault limit reached (" ++ toString config.maxVaultsPerUser ++ " per account)"))
      else goOn .taken
  | .taken =>
      if db.has tx.id then refuse (.status 409 "a vault with that id already exists")
      else goOn .insert
  | .insert =>
      -- a row with this id, or the account, may be in another transaction's hands
      if held.insertedId tx.id || held.user tx.owner then none
      else if db.has tx.id || (db.hasKey tx.owner).isNone then
        refuse (.internal "constraint violated")
      else goOn .member
  | .member => goOn .commit
  | .commit => some ⟨none, { db with vaults := db.vaults ++ [tx.row] }, blobs, none⟩

def Db.without (db : Db) (ids : List String) : Db :=
  { db with vaults := db.vaults.filter fun row => !ids.contains row.vault.id }

def AccountTx.run (held : Held) (db : Db) (blobs : Blobs) (tx : AccountTx) : Option Ran :=
  let owned := (db.owned tx.userId).map (·.vault.id)
  match tx.phase with
  | .vaults =>
      if owned.any held.row then none
      else some ⟨some (.account { tx with phase := .user, returned := owned, deleted := owned }),
        db, blobs, none⟩
  | .user =>
      if owned.any held.row || held.insertedFor tx.userId then none
      else some ⟨some (.account { tx with phase := .commit, deleted := tx.deleted ++ owned }),
        db, blobs, none⟩
  | .commit =>
      some ⟨some (.remove (tx.returned.flatMap dirsOf)),
        { db.without tx.deleted with hasKey := Function.update db.hasKey tx.userId none },
        blobs, none⟩

def runDeleteVault (held : Held) (db : Db) (blobs : Blobs) (userId vaultId : String)
    (owner : Bool) : Option Ran :=
  if owner then
    if held.row vaultId then none
    else if (db.find vaultId).any (·.owner = userId) then
      some ⟨some (.remove (dirsOf vaultId)), db.without [vaultId], blobs, none⟩
    else some ⟨none, db, blobs, some notFound⟩
  else
    match (db.find vaultId).filter (userId ∈ ·.vault.members) with
    | none => some ⟨none, db, blobs, some notFound⟩
    | some row =>
        if validVaultId vaultId = false then some ⟨none, db, blobs, some notFound⟩
        else if row.owner = userId then
          some ⟨some (.deleteVault userId vaultId true), db, blobs, none⟩
        else some ⟨none, db, blobs, some (.status 403 "only the owner can do that")⟩

/-! ## Every request -/

def Job.run (config : StorageConfig) (held : Held) (db : Db) (blobs : Blobs) : Job → Option Ran
  | .write tx => tx.run config held db blobs
  | .create tx => tx.run config held db blobs
  | .account tx => tx.run held db blobs
  | .deleteVault userId vaultId owner => runDeleteVault held db blobs userId vaultId owner
  | .remove [] => some ⟨none, db, blobs, none⟩
  | .remove (dir :: rest) => some ⟨some (.remove rest), db, removeDir blobs dir, none⟩
  | .walk found => some ⟨some (.check found), db, blobs, none⟩
  | .check [] => some ⟨none, db, blobs, none⟩
  | .check (dir :: rest) =>
      if db.has dir.2 then some ⟨some (.check rest), db, blobs, none⟩
      else some ⟨some (.sweep dir rest), db, blobs, none⟩
  | .sweep dir rest => some ⟨some (.check rest), db, removeDir blobs dir, none⟩

structure World where
  db : Db
  blobs : Blobs
  jobs : Pool Job

def World.start : World := ⟨⟨[], fun _ => none⟩, fun _ => .empty, .empty⟩

/-- The locks that the job `id` may have to wait for. -/
def World.held (config : StorageConfig) (w : World) (id : Nat) : Held where
  row := fun vaultId => w.jobs.anyOther id (Job.locksRow vaultId)
  advisory := fun owner => w.jobs.anyOther id (Job.locksAdvisory config owner)
  insertedId := fun vaultId => w.jobs.anyOther id (Job.inserts fun tx => tx.id = vaultId)
  insertedFor := fun owner => w.jobs.anyOther id (Job.inserts fun tx => tx.owner = owner)
  user := fun userId => w.jobs.anyOther id (Job.deletesUser userId)

inductive Event where
  | signUp (userId : String)
  | setPassphrase (userId : String)
  /-- A put, a delete, or one operation of a batch. -/
  | write (vaultId : String) (call : Call)
  | create (owner : String) (body : CreateBody) (minted : String) (now : Nat)
  | deleteVault (userId vaultId : String)
  | deleteAccount (userId : String)
  | retention
  /-- A pass comes to a directory that was last changed `age` seconds ago. -/
  | walk (id : Nat) (dir : Dir) (age : Nat)
  | step (id : Nat)
  /-- A statement fails. -/
  | fail (id : Nat)
  /-- The process stops, or a request is dropped that has no blocking task: a
removal of blobs goes on without its request. -/
  | drop (id : Nat)

def World.step (config : StorageConfig) (w : World) : Event → Option World
  | .signUp userId =>
      if (w.db.hasKey userId).isSome then none
      else some { w with
        db := { w.db with hasKey := Function.update w.db.hasKey userId (some false) } }
  | .setPassphrase userId =>
      if (w.db.hasKey userId).isNone then none
      else some { w with
        db := { w.db with hasKey := Function.update w.db.hasKey userId (some true) } }
  | .write vaultId call => some { w with jobs := w.jobs.add (.write { vaultId, call }) }
  | .create owner body minted now =>
      match body.check config minted with
      | .error _ => none
      | .ok (id, maxFileSize) =>
          some { w with jobs := w.jobs.add (.create { owner, id, maxFileSize, now }) }
  | .deleteVault userId vaultId =>
      some { w with jobs := w.jobs.add (.deleteVault userId vaultId false) }
  | .deleteAccount userId => some { w with jobs := w.jobs.add (.account { userId }) }
  | .retention => some { w with jobs := w.jobs.add (.walk []) }
  | .walk id dir age =>
      match w.jobs.job id with
      | some (.walk found) =>
          if orphanGraceSecs ≤ age then
            some { w with jobs := w.jobs.put id (some (.walk (found ++ [dir]))) }
          else none
      | _ => none
  | .step id =>
      match w.jobs.job id with
      | none => none
      | some job =>
          (job.run config (w.held config id) w.db w.blobs).map fun ran =>
            ⟨ran.db, ran.blobs, w.jobs.put id ran.job⟩
  | .fail id =>
      match w.jobs.job id with
      | none => none
      | some (.write tx) =>
          some { w with blobs := tx.undone w.blobs, jobs := w.jobs.put id none }
      | some _ => some { w with jobs := w.jobs.put id none }
  | .drop id =>
      match w.jobs.job id with
      | none => none
      | some _ => some { w with jobs := w.jobs.put id none }

/-! ## Small facts about the rows -/

theorem Db.has_eq_false {db : Db} {id : String} :
    db.has id = false ↔ ∀ row ∈ db.vaults, row.vault.id ≠ id := by
  simp [Db.has]

theorem Db.has_without {db : Db} {ids : List String} {id : String}
    (h : db.has id = false ∨ id ∈ ids) : (db.without ids).has id = false := by
  rw [Db.has_eq_false] at h ⊢
  intro row hrow hid
  obtain ⟨hmem, hkept⟩ := List.mem_filter.mp hrow
  obtain hnone | hids := h
  · exact hnone row hmem hid
  · rw [← hid] at hids
    simp [hids] at hkept

@[simp] theorem Db.has_upsert (db : Db) (vaultId path : String) (entry : FileEntry) (now : Nat)
    (id : String) : (db.upsert vaultId path entry now).has id = db.has id := by
  simp only [Db.has, Db.upsert, List.any_map]
  congr 1
  funext row
  simp only [Function.comp]
  split <;> rfl

theorem Db.find_mem {db : Db} {vaultId : String} {row : VaultRow}
    (hfind : db.find vaultId = some row) : row ∈ db.vaults ∧ row.vault.id = vaultId :=
  ⟨List.mem_of_find?_eq_some hfind, by simpa using List.find?_some hfind⟩

theorem Db.files_of_find {db : Db} {vaultId : String} {row : VaultRow}
    (hfind : db.find vaultId = some row) : db.files vaultId = row.vault.files := by
  simp [Db.files, hfind]

theorem Db.find_upsert_of_ne {db : Db} {vaultId other path : String} {entry : FileEntry}
    {now : Nat} (hne : other ≠ vaultId) :
    (db.upsert vaultId path entry now).find other = db.find other := by
  unfold Db.find Db.upsert
  induction db.vaults with
  | nil => rfl
  | cons row rest ih =>
      simp only [List.map_cons, List.find?_cons]
      by_cases hid : row.vault.id = vaultId
      · have hother : row.vault.id ≠ other := fun heq => hne (heq.symm.trans hid)
        simp only [hid, if_true, Vault.upsertEntry] at ih ⊢
        simpa [hid ▸ hother, Ne.symm hne] using ih
      · simp only [hid, if_false]
        split
        next => rfl
        next => exact ih

theorem Db.find_without {db : Db} {ids : List String} {vaultId : String} (hnot : vaultId ∉ ids) :
    (db.without ids).find vaultId = db.find vaultId := by
  unfold Db.find Db.without
  rw [List.find?_filter]
  congr 1
  funext row
  by_cases hid : row.vault.id = vaultId <;> simp [hid, hnot]

theorem Db.owned_upsert_length (db : Db) (vaultId path : String) (entry : FileEntry) (now : Nat)
    (owner : String) :
    ((db.upsert vaultId path entry now).owned owner).length = (db.owned owner).length := by
  unfold Db.owned Db.upsert
  rw [List.filter_map, List.length_map]
  congr 2
  funext row
  simp only [Function.comp]
  split <;> rfl

theorem Db.owned_without_length_le (db : Db) (ids : List String) (owner : String) :
    ((db.without ids).owned owner).length ≤ (db.owned owner).length :=
  (List.filter_sublist.filter _).length_le

/-! ## What a step does -/

/-- A request that has just come in. -/
def Job.New (config : StorageConfig) : Job → Prop
  | .write tx => tx.phase = .member ∧ tx.entry = none
  | .create tx => tx.phase = .advisory ∧ tx.maxFileSize ≤ config.maxFileBytes
  | .account tx => tx.returned = [] ∧ tx.deleted = [] ∧ tx.phase = .vaults
  | .deleteVault _ _ owner => owner = false
  | .walk found => found = []
  | .remove _ | .check _ | .sweep _ _ => False

theorem CreateBody.check_ok {config : StorageConfig} {body : CreateBody} {minted id : String}
    {maxFileSize : Nat} (hcheck : body.check config minted = .ok (id, maxFileSize)) :
    maxFileSize ≤ config.maxFileBytes := by
  unfold CreateBody.check at hcheck
  grind

/-- A request comes in, a job takes a step, or a job ends or goes on without
touching a row. -/
theorem World.step_cases {config : StorageConfig} {w w' : World} {event : Event}
    (hstep : w.step config event = some w') :
    (∃ job : Job, job.New config ∧ w' = { w with jobs := w.jobs.add job }) ∨
    (∃ id job ran, event = .step id ∧ w.jobs.job id = some job ∧
      job.run config (w.held config id) w.db w.blobs = some ran ∧
      w' = ⟨ran.db, ran.blobs, w.jobs.put id ran.job⟩) ∨
    w'.db.vaults = w.db.vaults ∧ (w'.jobs = w.jobs ∨ ∃ id next, w'.jobs = w.jobs.put id next ∧
      ∀ job ∈ next, ∃ found, job = .walk found) := by
  cases event with
  | write | deleteVault | deleteAccount | retention =>
      obtain rfl := Option.some.inj hstep
      exact Or.inl ⟨_, by simp [Job.New], rfl⟩
  | create owner body minted now =>
      simp only [step] at hstep
      split at hstep
      next => cases hstep
      next id maxFileSize hcheck =>
        obtain rfl := Option.some.inj hstep
        refine Or.inl ⟨_, ?_, rfl⟩
        exact ⟨rfl, CreateBody.check_ok hcheck⟩
  | step id =>
      simp only [step] at hstep
      split at hstep
      next => cases hstep
      next job hjob =>
        obtain ⟨ran, hran, rfl⟩ := Option.map_eq_some_iff.mp hstep
        exact Or.inr (Or.inl ⟨id, job, ran, rfl, hjob, hran, rfl⟩)
  | signUp | setPassphrase =>
      right; right
      simp only [step] at hstep
      grind
  -- a walk only notes one directory more
  | walk id dir age =>
      right; right
      simp only [step] at hstep
      split at hstep
      next found hjob =>
        split at hstep
        next =>
          obtain rfl := Option.some.inj hstep
          refine ⟨rfl, Or.inr ⟨id, _, rfl, ?_⟩⟩
          simp
        next => cases hstep
      next => cases hstep
  | fail id =>
      right; right
      simp only [step] at hstep
      split at hstep
      next => cases hstep
      all_goals
        obtain rfl := Option.some.inj hstep
        exact ⟨rfl, Or.inr ⟨id, none, rfl, by simp⟩⟩
  | drop id =>
      right; right
      simp only [step] at hstep
      split at hstep
      next => cases hstep
      next =>
        obtain rfl := Option.some.inj hstep
        exact ⟨rfl, Or.inr ⟨id, none, rfl, by simp⟩⟩

section

variable {config : StorageConfig} {held : Held} {db : Db} {blobs : Blobs} {ran : Ran}

/-- A write ends, commits its row, or goes on. -/
theorem WriteTx.run_cases {tx : WriteTx} (hran : tx.run config held db blobs = some ran) :
    ran.db = db ∧ (ran.job = none ∨ ∃ next, ran.job = some (.write next)) ∨
    ∃ entry, tx.phase = .commit ∧ tx.entry = some entry ∧ ran.job = none ∧
      ran.db = db.upsert tx.vaultId tx.call.path entry tx.call.now := by
  unfold WriteTx.run at hran
  cases hphase : tx.phase <;> simp only [hphase] at hran <;> grind

/-- A create ends, commits its row, or goes on. -/
theorem CreateTx.run_cases {tx : CreateTx} (hran : tx.run config held db blobs = some ran) :
    ran.db = db ∧ (ran.job = none ∨ ∃ phase, ran.job = some (.create { tx with phase := phase })) ∨
    tx.phase = .commit ∧ ran.job = none ∧
      ran.db = { db with vaults := db.vaults ++ [tx.row] } := by
  unfold CreateTx.run at hran
  cases hphase : tx.phase <;> simp only [hphase] at hran <;> grind

/-- A vault goes only with its lock. -/
theorem Job.run_db {job : Job} (hran : job.run config held db blobs = some ran) :
    ran.db.vaults = db.vaults ∨
    (∃ tx entry, job = .write tx ∧ tx.phase = .commit ∧ tx.entry = some entry ∧ ran.job = none ∧
      ran.db = db.upsert tx.vaultId tx.call.path entry tx.call.now) ∨
    (∃ tx, job = .create tx ∧ tx.phase = .commit ∧ ran.job = none ∧
      ran.db = { db with vaults := db.vaults ++ [tx.row] }) ∨
    ∃ ids, ran.db.vaults = (db.without ids).vaults ∧
      ∀ id ∈ ids, job.locksRow id = true ∨ held.row id = false := by
  cases job with
  | write tx =>
      obtain ⟨hdb, -⟩ | ⟨entry, hphase, hentry, hnone, hdb⟩ := WriteTx.run_cases hran
      · exact Or.inl (by rw [hdb])
      · exact Or.inr (Or.inl ⟨tx, entry, rfl, hphase, hentry, hnone, hdb⟩)
  | create tx =>
      obtain ⟨hdb, -⟩ | ⟨hphase, hnone, hdb⟩ := CreateTx.run_cases hran
      · exact Or.inl (by rw [hdb])
      · exact Or.inr (Or.inr (Or.inl ⟨tx, rfl, hphase, hnone, hdb⟩))
  | account tx =>
      simp only [Job.run, AccountTx.run] at hran
      cases hphase : tx.phase with
      -- until its commit the account only collects its vaults
      | vaults | user =>
          left
          simp only [hphase] at hran
          grind
      | commit =>
          simp only [hphase] at hran
          obtain rfl := Option.some.inj hran
          right; right; right
          exact ⟨tx.deleted, rfl, fun id hid => Or.inl (by simpa [locksRow] using hid)⟩
  | deleteVault userId vaultId owner =>
      simp only [Job.run, runDeleteVault] at hran
      split at hran
      next =>
        split at hran
        next => cases hran
        -- the delete of one vault waits for its row to be free
        next hfree =>
          split at hran <;> obtain rfl := Option.some.inj hran
          next =>
            right; right; right
            refine ⟨[vaultId], rfl, ?_⟩
            intro id hid
            obtain rfl := List.mem_singleton.mp hid
            exact Or.inr (Bool.eq_false_iff.mpr hfree)
          next => exact Or.inl rfl
      next =>
        left
        grind
  | remove dirs => cases dirs <;> obtain rfl := Option.some.inj hran <;> exact Or.inl rfl
  | walk found | sweep dir rest =>
      obtain rfl := Option.some.inj hran
      exact Or.inl rfl
  | check candidates =>
      left
      simp only [Job.run] at hran
      grind

end

/-! ## Sample requests -/

def sampleStorage : StorageConfig where
  toConfig := sampleConfig
  maxFileBytes := 100
  maxVaultsPerUser := 2
  hashtext := fun _ => 0

def otherVaultId : String := "vault_11111111-1111-4111-8111-111111111111"

def steps (id count : Nat) : List Event := List.replicate count (.step id)

/-- A vault is created under an id of the client's. -/
def created (id : Nat) (vaultId : String) : List Event :=
  .create "user_1" ⟨some vaultId, some "Notes", none, .bytes (List.replicate 60 0)⟩ "" 0 ::
    steps id 7

/-- `note` is put. -/
def written (id : Nat) (vaultId : String) : List Event :=
  .write vaultId ⟨none, 1, Aead.zeroNonce, "user_1", .put ⟨"note", none, some "h", none⟩ [104]⟩ ::
    steps id 8

/-- A vault is deleted, up to its row. -/
def deleted (id : Nat) (vaultId : String) : List Event :=
  .deleteVault "user_1" vaultId :: steps id 2

def signedUp : List Event := [.signUp "user_1", .setPassphrase "user_1"]

end ObSink.Server.Storage
