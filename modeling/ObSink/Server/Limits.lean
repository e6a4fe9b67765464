import Mathlib.Algebra.Order.BigOperators.Group.List
import Mathlib.Algebra.Order.Group.Nat
import ObSink.Server.Storage

/-! # Storage limits

A put sums up the live rows of its vault while it holds the vault's row, and a
create counts the owner's vaults while it holds the owner's advisory lock. So
the limits hold in every committed state, whatever runs at the same time.
-/

namespace ObSink.Server.Storage

/-- Bytes of the live rows. -/
def liveBytes (files : Manifest) : Nat :=
  ((files.toList.filter fun row => !row.2.deleted).map fun row => row.2.size).sum

theorem usedBytes_eq (files : Manifest) (path : String) :
    usedBytes files path =
      (((files.toList.filter fun row => row.1 ≠ path).filter fun row => !row.2.deleted).map
        fun row => row.2.size).sum := by
  rw [usedBytes, List.filter_filter]
  congr 3
  funext row
  by_cases hpath : row.1 = path <;> simp [hpath]

theorem liveBytes_insert (files : Manifest) (path : String) (entry : FileEntry) :
    liveBytes (files.insert path entry) =
      usedBytes files path + if entry.deleted then 0 else entry.size := by
  have hperm := ((Std.ExtTreeMap.toList_insert_perm files path entry).filter
    fun row => !row.2.deleted).map fun row => row.2.size
  rw [liveBytes, hperm.sum_nat, List.filter_cons, usedBytes_eq]
  cases hdeleted : entry.deleted with
  | true => simp
  | false => simp [Nat.add_comm]

@[simp] theorem liveBytes_empty : liveBytes ∅ = 0 := by
  rw [liveBytes, Std.ExtTreeMap.toList_eq_nil_iff.mpr rfl]
  rfl

theorem usedBytes_le (files : Manifest) (path : String) :
    usedBytes files path ≤ liveBytes files := by
  rw [usedBytes_eq, liveBytes]
  have hothers : (files.toList.filter fun row => row.1 ≠ path).Sublist files.toList :=
    List.filter_sublist
  have hsub := hothers.filter fun row => !row.2.deleted
  exact (hsub.map _).sum_le_sum fun _ _ => Nat.zero_le _

/-! ## What the limits say -/

structure VaultRow.Within (config : StorageConfig) (row : VaultRow) : Prop where
  bytes : liveBytes row.vault.files ≤ config.maxVaultBytes
  sizes : ∀ (path : String) (entry : FileEntry), row.vault.files[path]? = some entry →
    entry.deleted = false → entry.size ≤ row.vault.maxFileSize
  file : row.vault.maxFileSize ≤ config.maxFileBytes

/-- The committed rows keep the limits, and an id names one vault. -/
structure Db.Within (config : StorageConfig) (db : Db) : Prop where
  rows : ∀ row ∈ db.vaults, row.Within config
  owners : ∀ owner, (db.owned owner).length ≤ config.maxVaultsPerUser
  ids : (db.vaults.map (·.vault.id)).Nodup

/-- A vault can take a new row of `files`. -/
def VaultRow.Takes (config : StorageConfig) (row : VaultRow) (path : String) (entry : FileEntry) :
    Prop :=
  liveBytes (row.vault.files.insert path entry) ≤ config.maxVaultBytes ∧
    (entry.deleted = false → entry.size ≤ row.vault.maxFileSize)

def WriteTx.locked (tx : WriteTx) : Bool := tx.phase ≠ .member && tx.phase ≠ .lock

/-- A write that has locked its vault has read its row, and comes to nothing
the vault cannot take. -/
def WriteTx.Fits (config : StorageConfig) (db : Db) (tx : WriteTx) : Prop :=
  if tx.locked then
    ∃ row, db.find tx.vaultId = some row ∧ tx.maxFileSize = row.vault.maxFileSize ∧
      (tx.phase = .used → ∀ params body, tx.call.request = .put params body →
        body.length ≤ tx.maxFileSize) ∧
      ∀ entry, tx.entry = some entry → row.Takes config tx.call.path entry
  else tx.entry = none

def CreateTx.counted (tx : CreateTx) : Bool :=
  tx.phase = .taken || tx.phase = .insert || tx.phase = .member || tx.phase = .commit

def CreateTx.inserted (tx : CreateTx) : Bool := tx.phase = .member || tx.phase = .commit

/-- A create that has counted leaves room for its vault, and one that has
inserted its row has an id of its own. -/
structure CreateTx.Fits (config : StorageConfig) (db : Db) (tx : CreateTx) : Prop where
  file : tx.maxFileSize ≤ config.maxFileBytes
  room : tx.counted = true → (db.owned tx.owner).length < config.maxVaultsPerUser
  new : tx.inserted = true → db.has tx.id = false

def Job.Fits (config : StorageConfig) (db : Db) : Job → Prop
  | .write tx => tx.Fits config db
  | .create tx => tx.Fits config db
  | _ => True

/-- What two requests cannot both hold: a vault's row, an owner's advisory lock,
and an uncommitted vault of one id. -/
structure Job.Apart (config : StorageConfig) (a b : Job) : Prop where
  row : ∀ vaultId, a.locksRow vaultId = true → b.locksRow vaultId = true → False
  advisory : ∀ owner, a.locksAdvisory config owner = true →
    b.locksAdvisory config owner = true → False
  id : ∀ vaultId, a.inserts (·.id = vaultId) = true → b.inserts (·.id = vaultId) = true → False

theorem Job.Apart.symm {config : StorageConfig} {a b : Job} (h : a.Apart config b) :
    b.Apart config a where
  row := fun vaultId hb ha => h.row vaultId ha hb
  advisory := fun owner hb ha => h.advisory owner ha hb
  id := fun vaultId hb ha => h.id vaultId ha hb

/-! ## A write -/

section

variable {config : StorageConfig} {held : Held} {db : Db} {blobs : Blobs} {ran : Ran}

theorem WriteTx.admit_ok {tx : WriteTx} {entry : FileEntry}
    (hadmitted : tx.admit = .ok (some entry)) :
    match tx.call.request with
    | .put _ body => entry.deleted = false ∧ entry.size = body.length
    | .delete _ _ => entry.deleted = true := by
  unfold WriteTx.admit at hadmitted
  cases hrequest : tx.call.request with
  | put params body =>
      simp only [hrequest] at hadmitted
      grind [putEntry]
  | delete path parentHash =>
      simp only [hrequest] at hadmitted
      grind [tombstone]

theorem WriteTx.Fits.row {tx : WriteTx} (h : tx.Fits config db) (hlocked : tx.locked = true) :
    ∃ row, db.find tx.vaultId = some row ∧ tx.maxFileSize = row.vault.maxFileSize ∧
      (tx.phase = .used → ∀ params body, tx.call.request = .put params body →
        body.length ≤ tx.maxFileSize) ∧
      ∀ entry, tx.entry = some entry → row.Takes config tx.call.path entry := by
  rwa [Fits, if_pos hlocked] at h

/-- A vault can always take a tombstone. -/
theorem VaultRow.Within.takes_tombstone {row : VaultRow} (h : row.Within config) {path : String}
    {entry : FileEntry} (hdeleted : entry.deleted = true) : row.Takes config path entry := by
  refine ⟨?_, by simp [hdeleted]⟩
  have hused := usedBytes_le row.vault.files path
  have hbytes := h.bytes
  rw [liveBytes_insert, if_pos hdeleted]
  omega

/-- What a write that holds the lock admits, its vault can take. -/
theorem WriteTx.Fits.admitted {tx next : WriteTx} {entry : FileEntry}
    (hadmitted : tx.admit = .ok (some entry))
    (hnext : { tx with phase := .blobs, entry := some entry } = next) {row : VaultRow}
    (hwithin : row.Within config) (hrow : db.find tx.vaultId = some row)
    (hmax : tx.maxFileSize = row.vault.maxFileSize)
    (hput : ∀ params body, tx.call.request = .put params body →
      usedBytes row.vault.files params.path + body.length ≤ config.maxVaultBytes ∧
        body.length ≤ tx.maxFileSize) : next.Fits config db := by
  have htakes : row.Takes config tx.call.path entry := by
    have hentry := admit_ok hadmitted
    cases hrequest : tx.call.request with
    | put params body =>
        rw [hrequest] at hentry
        obtain ⟨hused, hsize⟩ := hput params body hrequest
        refine ⟨?_, fun _ => by omega⟩
        have hpath : tx.call.path = params.path := by rw [Call.path, hrequest, Request.path]
        rw [hpath, liveBytes_insert, hentry.1, hentry.2]
        exact hused
    | delete path parentHash =>
        rw [hrequest] at hentry
        exact hwithin.takes_tombstone hentry
  subst hnext
  rw [Fits, if_pos (by simp [locked])]
  refine ⟨row, hrow, hmax, by simp, ?_⟩
  intro other hother
  obtain rfl := Option.some.inj hother
  exact htakes

theorem WriteTx.Fits.run {tx next : WriteTx} (h : tx.Fits config db) (hwithin : db.Within config)
    (hran : tx.run config held db blobs = some ran) (hnext : ran.job = some (.write next)) :
    next.Fits config db := by
  -- a step after the admission only moves on
  have hmoves : tx.locked = true → next.vaultId = tx.vaultId → next.call = tx.call →
      next.maxFileSize = tx.maxFileSize → next.entry = tx.entry → next.locked = true →
      next.phase ≠ .used → next.Fits config db := by
    intro hlocked hvault hcall hsize hentry hnextLocked hphase
    obtain ⟨row, hrow, hmax, -, htakes⟩ := h.row hlocked
    rw [Fits, if_pos hnextLocked, hvault, hcall, hsize, hentry]
    exact ⟨row, hrow, hmax, fun hused => absurd hused hphase, htakes⟩
  unfold WriteTx.run at hran
  cases hphase : tx.phase with
  | member =>
      have hsame : next = { tx with phase := .lock } := by
        simp only [hphase] at hran
        grind
      simpa [hsame, Fits, locked, hphase] using h
  | lock =>
      simp only [hphase] at hran
      split at hran
      next => cases hran
      next =>
        split at hran
        next =>
          obtain rfl := Option.some.inj hran
          cases hnext
        next row hrow =>
          obtain rfl := Option.some.inj hran
          cases hnext
          have hnone : tx.entry = none := by simpa [Fits, locked, hphase] using h
          simp [Fits, locked, hrow, hnone]
  | entry =>
      obtain ⟨row, hrow, hmax, -, htakes⟩ := h.row (by simp [locked, hphase])
      have hrowWithin := hwithin.rows row (Db.find_mem hrow).1
      simp only [hphase] at hran
      split at hran
      next params body hrequest =>
        split at hran
        next =>
          obtain rfl := Option.some.inj hran
          cases hnext
        next hsize =>
          obtain rfl := Option.some.inj hran
          cases hnext
          rw [Fits, if_pos (by simp [locked])]
          refine ⟨row, hrow, hmax, ?_, htakes⟩
          intro _ params' body' hrequest'
          obtain ⟨-, rfl⟩ := Request.put.inj (hrequest.symm.trans hrequest')
          exact Nat.not_lt.mp hsize
      next path parentHash hrequest =>
        split at hran <;> obtain rfl := Option.some.inj hran
        next => cases hnext
        next => cases hnext
        next entry hadmitted =>
          apply Fits.admitted hadmitted (Job.write.inj (Option.some.inj hnext)) hrowWithin hrow hmax
          intro params body hput
          exact absurd (hrequest.symm.trans hput) (by simp)
  | used =>
      obtain ⟨row, hrow, hmax, hsize, htakes⟩ := h.row (by simp [locked, hphase])
      have hrowWithin := hwithin.rows row (Db.find_mem hrow).1
      simp only [hphase] at hran
      split at hran
      next params body hrequest =>
        split at hran
        next =>
          obtain rfl := Option.some.inj hran
          cases hnext
        next hused =>
          split at hran <;> obtain rfl := Option.some.inj hran
          next => cases hnext
          next => cases hnext
          next entry hadmitted =>
            have hsame := Job.write.inj (Option.some.inj hnext)
            apply Fits.admitted hadmitted hsame hrowWithin hrow hmax
            intro params' body' hput
            obtain ⟨rfl, rfl⟩ := Request.put.inj (hrequest.symm.trans hput)
            rw [Db.files_of_find hrow] at hused
            exact ⟨Nat.not_lt.mp hused, hsize hphase params body hrequest⟩
      next => cases hran
  | blobs | upsert | bump | commit =>
      simp only [hphase] at hran
      apply hmoves <;> grind [locked]

/-! ## A create -/

theorem CreateTx.Fits.run {tx : CreateTx} {phase : CreatePhase} (h : tx.Fits config db)
    (hran : tx.run config held db blobs = some ran)
    (hnext : ran.job = some (.create { tx with phase := phase })) :
    CreateTx.Fits config db { tx with phase := phase } := by
  unfold CreateTx.run at hran
  obtain ⟨hfile, hroom, hnew⟩ := h
  refine ⟨hfile, ?_, ?_⟩
  · cases hphase : tx.phase <;> simp only [hphase, counted] at hran hroom ⊢ <;> grind
  · cases hphase : tx.phase <;> simp only [hphase, inserted] at hran hnew ⊢ <;> grind

/-! ## The locks -/

/-- A lock that a job holds after a step, it held before, or nobody else did. -/
structure Job.Gains (config : StorageConfig) (held : Held) (job next : Job) : Prop where
  row : ∀ vaultId, next.locksRow vaultId = true →
    job.locksRow vaultId = true ∨ held.row vaultId = false
  advisory : ∀ owner, next.locksAdvisory config owner = true →
    job.locksAdvisory config owner = true ∨
      ∃ same, config.hashtext same = config.hashtext owner ∧ held.advisory same = false
  id : ∀ vaultId, next.inserts (·.id = vaultId) = true →
    job.inserts (·.id = vaultId) = true ∨ held.insertedId vaultId = false

theorem Job.run_gains {job next : Job} (hran : job.run config held db blobs = some ran)
    (hnext : ran.job = some next) : job.Gains config held next := by
  cases job with
  | write tx =>
      simp only [Job.run, WriteTx.run] at hran
      cases hphase : tx.phase <;> simp only [hphase] at hran <;> constructor <;>
        grind [locksRow, locksAdvisory, inserts]
  | create tx =>
      simp only [Job.run, CreateTx.run] at hran
      cases hphase : tx.phase <;> simp only [hphase] at hran <;> constructor <;>
        grind [locksRow, locksAdvisory, inserts]
  | account tx =>
      simp only [Job.run, AccountTx.run] at hran
      cases hphase : tx.phase <;> simp only [hphase] at hran <;> constructor <;>
        grind [locksRow, locksAdvisory, inserts]
  | deleteVault userId vaultId owner =>
      simp only [Job.run, runDeleteVault] at hran
      constructor <;> grind [locksRow, locksAdvisory, inserts]
  | remove dirs =>
      cases dirs <;> simp only [Job.run] at hran <;> constructor <;>
        grind [locksRow, locksAdvisory, inserts]
  | walk found | sweep dir rest =>
      simp only [Job.run] at hran
      constructor <;> grind [locksRow, locksAdvisory, inserts]
  | check candidates =>
      cases candidates <;> simp only [Job.run] at hran <;> constructor <;>
        grind [locksRow, locksAdvisory, inserts]

/-- What a request has come to stays so as long as what it has locked does. -/
theorem Job.Fits.mono {db' : Db} {job : Job} (h : job.Fits config db)
    (hfind : ∀ vaultId row, job.locksRow vaultId = true → db.find vaultId = some row →
      db'.find vaultId = some row)
    (hroom : ∀ owner, job.locksAdvisory config owner = true →
      (db'.owned owner).length ≤ (db.owned owner).length)
    (hnew : ∀ id, job.inserts (·.id = id) = true → db.has id = false → db'.has id = false) :
    job.Fits config db' := by
  cases job with
  | write tx =>
      cases hlocked : tx.locked with
      | false => simpa [Fits, WriteTx.Fits, hlocked] using h
      | true =>
          obtain ⟨row, hrow, hrest⟩ := WriteTx.Fits.row h hlocked
          have hlock : locksRow tx.vaultId (.write tx) = true := by
            simpa [locksRow, WriteTx.locked] using hlocked
          rw [Fits, WriteTx.Fits, if_pos hlocked]
          exact ⟨row, hfind tx.vaultId row hlock hrow, hrest⟩
  | create tx =>
      refine ⟨h.file, ?_, ?_⟩
      · intro hcounted
        have hlock : locksAdvisory config tx.owner (.create tx) = true := by
          unfold CreateTx.counted at hcounted
          simp only [locksAdvisory]
          grind
        exact Nat.lt_of_le_of_lt (hroom tx.owner hlock) (h.room hcounted)
      · intro hinserted
        have hinserts : inserts (·.id = tx.id) (.create tx) = true := by
          simpa [inserts, CreateTx.inserted] using hinserted
        exact hnew tx.id hinserts (h.new hinserted)
  | account | deleteVault | remove | walk | check | sweep => trivial

/-- A step leaves alone what other requests have locked. -/
theorem Job.Fits.frame {job other : Job} (hother : other.Fits config db)
    (hran : job.run config held db blobs = some ran) (happart : job.Apart config other)
    (hheld : ∀ vaultId, held.row vaultId = false → other.locksRow vaultId = false) :
    other.Fits config ran.db := by
  obtain hvaults | ⟨tx, entry, rfl, hphase, -, -, hdb⟩ | ⟨tx, rfl, hphase, -, hdb⟩ |
    ⟨ids, hvaults, hlocks⟩ := Job.run_db hran
  · apply hother.mono <;> simp [Db.find, Db.owned, Db.has, hvaults]
  · have hlock : locksRow tx.vaultId (.write tx) = true := by simp [locksRow, hphase]
    rw [hdb]
    apply hother.mono
    · intro vaultId row hlocked hrow
      have hne : vaultId ≠ tx.vaultId := by
        intro heq
        exact happart.row tx.vaultId hlock (heq ▸ hlocked)
      rw [Db.find_upsert_of_ne hne, hrow]
    · intro owner _
      rw [Db.owned_upsert_length]
    · intro id _ hnone
      rw [Db.has_upsert, hnone]
  · rw [hdb]
    apply hother.mono
    · intro vaultId row _ hrow
      rw [Db.find, List.find?_append, ← Db.find, hrow, Option.some_or]
    · intro owner hlocked
      have hne : tx.owner ≠ owner := by
        intro heq
        apply happart.advisory owner ?_ hlocked
        simp [locksAdvisory, heq, hphase]
      simp [Db.owned, CreateTx.row, hne]
    · intro id hinserts hnone
      have hne : tx.id ≠ id := by
        intro heq
        apply happart.id id ?_ hinserts
        simp [inserts, heq, hphase]
      simpa [Db.has, CreateTx.row, hne] using hnone
  · apply hother.mono
    · intro vaultId row hlocked hrow
      have hnot : vaultId ∉ ids := by
        intro hid
        obtain hjob | hfree := hlocks vaultId hid
        · exact happart.row vaultId hjob hlocked
        · simp [hheld vaultId hfree] at hlocked
      rw [Db.find, hvaults, ← Db.find, Db.find_without hnot, hrow]
    · intro owner _
      rw [Db.owned, hvaults, ← Db.owned]
      exact Db.owned_without_length_le db ids owner
    · intro id _ hnone
      rw [Db.has, hvaults, ← Db.has]
      exact Db.has_without (Or.inl hnone)

/-! ## The rows -/

theorem VaultRow.Within.upsert {row : VaultRow} {path : String} {entry : FileEntry}
    (h : row.Within config) (htakes : row.Takes config path entry) (now : Nat) :
    VaultRow.Within config { row with vault := row.vault.upsertEntry path entry now } := by
  refine ⟨htakes.1, ?_, h.file⟩
  intro other found hfound hlive
  rw [Vault.upsertEntry, Std.ExtTreeMap.getElem?_insert] at hfound
  split at hfound
  next =>
    obtain rfl := Option.some.inj hfound
    exact htakes.2 hlive
  next => exact h.sizes other found hfound hlive

theorem Db.Within.upsert (h : db.Within config) {vaultId path : String} {entry : FileEntry}
    {row : VaultRow} (hrow : db.find vaultId = some row) (htakes : row.Takes config path entry)
    (now : Nat) : (db.upsert vaultId path entry now).Within config := by
  have hids : (db.upsert vaultId path entry now).vaults.map (·.vault.id) =
      db.vaults.map (·.vault.id) := by
    rw [Db.upsert, List.map_map]
    apply List.map_congr_left
    intro found _
    simp only [Function.comp]
    split <;> rfl
  refine ⟨?_, ?_, hids ▸ h.ids⟩
  · intro after hafter
    obtain ⟨found, hfound, rfl⟩ := List.mem_map.mp hafter
    split
    next hid =>
      obtain ⟨hmem, hrowId⟩ := Db.find_mem hrow
      obtain rfl : found = row :=
        List.inj_on_of_nodup_map h.ids hfound hmem (hid.trans hrowId.symm)
      exact (h.rows found hfound).upsert htakes now
    next => exact h.rows found hfound
  · intro owner
    rw [Db.owned_upsert_length]
    exact h.owners owner

theorem Db.Within.append (h : db.Within config) {tx : CreateTx} (hfits : tx.Fits config db)
    (hphase : tx.phase = .commit) :
    Db.Within config { db with vaults := db.vaults ++ [tx.row] } := by
  refine ⟨?_, ?_, ?_⟩
  · intro row hrow
    obtain hold | hnew := List.mem_append.mp hrow
    · exact h.rows row hold
    · obtain rfl := List.mem_singleton.mp hnew
      refine ⟨by simp [CreateTx.row], ?_, hfits.file⟩
      intro path entry hentry
      simp [CreateTx.row] at hentry
  · intro owner
    have hroom := hfits.room (by simp [CreateTx.counted, hphase])
    have howners := h.owners owner
    unfold Db.owned at hroom howners ⊢
    by_cases howner : tx.owner = owner
    · subst howner
      simp [List.filter_append, CreateTx.row]
      omega
    · simpa [List.filter_append, CreateTx.row, howner] using howners
  · have hnew := Db.has_eq_false.mp (hfits.new (by simp [CreateTx.inserted, hphase]))
    rw [List.map_append, List.nodup_append]
    refine ⟨h.ids, by simp, ?_⟩
    intro id hid other hother heq
    obtain ⟨row, hrow, rfl⟩ := List.mem_map.mp hid
    obtain rfl : other = tx.id := by simpa [CreateTx.row] using hother
    exact hnew row hrow heq

theorem Db.Within.without (h : db.Within config) {ids : List String} {db' : Db}
    (hvaults : db'.vaults = (db.without ids).vaults) : db'.Within config := by
  have hsub : db'.vaults.Sublist db.vaults := hvaults ▸ List.filter_sublist
  refine ⟨fun row hrow => h.rows row (hsub.mem hrow), ?_, h.ids.sublist (hsub.map _)⟩
  intro owner
  exact (hsub.filter _).length_le.trans (h.owners owner)

theorem Db.Within.run {job : Job} (h : db.Within config) (hfits : job.Fits config db)
    (hran : job.run config held db blobs = some ran) : ran.db.Within config := by
  obtain hvaults | ⟨tx, entry, rfl, hphase, hentry, -, hdb⟩ | ⟨tx, rfl, hphase, -, hdb⟩ |
    ⟨ids, hvaults, -⟩ := Job.run_db hran
  · refine ⟨hvaults ▸ h.rows, ?_, hvaults ▸ h.ids⟩
    intro owner
    rw [Db.owned, hvaults]
    exact h.owners owner
  · obtain ⟨row, hrow, -, -, htakes⟩ :=
      WriteTx.Fits.row hfits (by simp [WriteTx.locked, hphase])
    rw [hdb]
    exact h.upsert hrow (htakes entry hentry) _
  · rw [hdb]
    exact h.append hfits hphase
  · exact h.without hvaults

theorem Job.Fits.run {job next : Job} (h : job.Fits config db) (hwithin : db.Within config)
    (hran : job.run config held db blobs = some ran) (hnext : ran.job = some next) :
    next.Fits config ran.db := by
  cases job with
  | write tx =>
      obtain ⟨hdb, hnone | ⟨after, hafter⟩⟩ | ⟨entry, -, -, hnone, -⟩ := WriteTx.run_cases hran
      · rw [hnone] at hnext
        cases hnext
      · obtain rfl := Option.some.inj (hafter.symm.trans hnext)
        rw [hdb]
        exact WriteTx.Fits.run h hwithin hran hafter
      · rw [hnone] at hnext
        cases hnext
  | create tx =>
      obtain ⟨hdb, hnone | ⟨phase, hafter⟩⟩ | ⟨-, hnone, -⟩ := CreateTx.run_cases hran
      · rw [hnone] at hnext
        cases hnext
      · obtain rfl := Option.some.inj (hafter.symm.trans hnext)
        rw [hdb]
        exact CreateTx.Fits.run h hran hafter
      · rw [hnone] at hnext
        cases hnext
  | account tx =>
      simp only [Job.run, AccountTx.run] at hran
      grind [Fits]
  | deleteVault userId vaultId owner =>
      simp only [Job.run, runDeleteVault] at hran
      grind [Fits]
  | remove dirs => cases dirs <;> simp only [Job.run] at hran <;> grind [Fits]
  | walk found | sweep dir rest =>
      simp only [Job.run] at hran
      grind [Fits]
  | check candidates => cases candidates <;> simp only [Job.run] at hran <;> grind [Fits]

theorem WriteTx.admit_error {tx : WriteTx} {error : ApiError}
    (hadmitted : tx.admit = .error error) :
    ∃ path current, error = .conflict path current := by
  unfold WriteTx.admit at hadmitted
  cases hcurrent : tx.current <;> simp only [hcurrent, gatePut, gateDelete] at hadmitted <;> grind

/-- A write is refused for its vault's limit only when it would break it. -/
theorem WriteTx.Fits.quota {tx : WriteTx} (h : tx.Fits config db)
    (hran : tx.run config held db blobs = some ran)
    (herror : ran.error = some (.status 507 quotaMessage)) :
    ∃ row params body, db.find tx.vaultId = some row ∧ tx.call.request = .put params body ∧
      config.maxVaultBytes < usedBytes row.vault.files params.path + body.length := by
  unfold WriteTx.run at hran
  cases hphase : tx.phase with
  | used =>
      obtain ⟨row, hrow, -⟩ := h.row (by simp [locked, hphase])
      simp only [hphase, Db.files_of_find hrow] at hran
      split at hran
      next params body hrequest =>
        refine ⟨row, params, body, hrow, hrequest, ?_⟩
        by_contra hfits
        rw [if_neg hfits] at hran
        have hconflict := @admit_error tx
        grind
      next => cases hran
  | member =>
      simp only [hphase] at hran
      grind [checkRequest, notFound]
  | lock | entry | blobs | upsert | bump | commit =>
      simp only [hphase] at hran
      have hconflict := fun current => @admit_error { tx with current := current }
      grind [notFound]

end

/-! ## Every run -/

/-- What holds in every state: the rows keep the limits, and no two requests
hold the same lock. -/
structure World.Limited (config : StorageConfig) (w : World) : Prop where
  within : w.db.Within config
  fits : w.jobs.All (Job.Fits config w.db)
  apart : w.jobs.Pairwise (Job.Apart config)

variable {config : StorageConfig} {w w' : World}

theorem Job.New.locks {job : Job} (h : job.New config) :
    (∀ vaultId, job.locksRow vaultId = false) ∧ (∀ owner, job.locksAdvisory config owner = false) ∧
      ∀ test, job.inserts test = false := by
  cases job <;> grind [New, locksRow, locksAdvisory, inserts]

theorem Job.New.fits {job : Job} (h : job.New config) (db : Db) : job.Fits config db := by
  cases job with
  | write tx => simpa [Fits, WriteTx.Fits, WriteTx.locked, h.1] using h.2
  | create tx =>
      refine ⟨h.2, ?_, ?_⟩
      · simp [CreateTx.counted, h.1]
      · simp [CreateTx.inserted, h.1]
  | account | deleteVault | remove | walk | check | sweep => trivial

/-- A job that holds no lock is apart from every other one. -/
theorem Job.Apart.of_no_locks {job other : Job} (hrow : ∀ vaultId, job.locksRow vaultId = false)
    (hadvisory : ∀ owner, job.locksAdvisory config owner = false)
    (hid : ∀ test, job.inserts test = false) : job.Apart config other where
  row := fun vaultId hlocked => by simp [hrow] at hlocked
  advisory := fun owner hlocked => by simp [hadvisory] at hlocked
  id := fun vaultId hlocked => by simp [hid] at hlocked

/-- A step takes no lock that another job holds. -/
theorem Job.Gains.apart {id other : Nat} {job next found : Job}
    (h : job.Gains config (w.held config id) next) (hother : other ≠ id)
    (hfound : w.jobs.job other = some found) (happart : job.Apart config found) :
    next.Apart config found where
  row := by
    intro vaultId hnext hlocked
    obtain hjob | hfree := h.row vaultId hnext
    · exact happart.row vaultId hjob hlocked
    · rw [Pool.of_anyOther_eq_false hfree hother hfound] at hlocked
      cases hlocked
  advisory := by
    intro owner hnext hlocked
    obtain hjob | ⟨same, hsame, hfree⟩ := h.advisory owner hnext
    · exact happart.advisory owner hjob hlocked
    · have hnot := Pool.of_anyOther_eq_false hfree hother hfound
      unfold locksAdvisory at hlocked hnot
      rw [hsame, hlocked] at hnot
      cases hnot
  id := by
    intro vaultId hnext hlocked
    obtain hjob | hfree := h.id vaultId hnext
    · exact happart.id vaultId hjob hlocked
    · rw [Pool.of_anyOther_eq_false hfree hother hfound] at hlocked
      cases hlocked

theorem World.Limited.step (h : w.Limited config) {event : Event}
    (hstep : w.step config event = some w') : w'.Limited config := by
  obtain ⟨new, hnew, rfl⟩ | ⟨id, job, ran, -, hjob, hran, rfl⟩ | ⟨hvaults, hjobs⟩ :=
    World.step_cases hstep
  · obtain ⟨hrow, hadvisory, hid⟩ := hnew.locks
    refine ⟨h.within, h.fits.add (hnew.fits w.db), ?_⟩
    apply h.apart.add
    · intro job
      exact .of_no_locks hrow hadvisory hid
    · intro job
      exact (Job.Apart.of_no_locks hrow hadvisory hid).symm
  · have hfits := h.fits id job hjob
    have happart : ∀ other found, other ≠ id → w.jobs.job other = some found →
        job.Apart config found := by
      intro other found hother hfound
      exact h.apart id other job found hother.symm hjob hfound
    have hothers : (w.jobs.put id ran.job).All (Job.Fits config ran.db) := by
      refine h.fits.put_of_imp ?_ ?_
      · intro next hnext
        exact hfits.run h.within hran hnext
      · intro other found hother hfound hkept
        apply hkept.frame hran (happart other found hother hfound)
        intro vaultId hfree
        exact Pool.of_anyOther_eq_false hfree hother hfound
    refine ⟨h.within.run hfits hran, hothers, ?_⟩
    apply h.apart.put (fun _ _ => Job.Apart.symm)
    intro next hnext other found hother hfound
    exact (Job.run_gains hran hnext).apart hother hfound (happart other found hother hfound)
  · have hwithin : w'.db.Within config := by
      refine ⟨hvaults ▸ h.within.rows, ?_, hvaults ▸ h.within.ids⟩
      intro owner
      rw [Db.owned, hvaults]
      exact h.within.owners owner
    have hsame : ∀ job : Job, job.Fits config w.db → job.Fits config w'.db := by
      intro job hkept
      apply hkept.mono <;> simp [Db.find, Db.owned, Db.has, hvaults]
    obtain hjobs | ⟨id, next, hjobs, hwalk⟩ := hjobs
    · refine ⟨hwithin, ?_, hjobs ▸ h.apart⟩
      intro id job hjob
      exact hsame job (h.fits id job (hjobs ▸ hjob))
    · refine ⟨hwithin, ?_, ?_⟩
      · rw [hjobs]
        refine h.fits.put_of_imp ?_ ?_
        · intro job hjob
          obtain ⟨found, rfl⟩ := hwalk job hjob
          trivial
        · intro _ job _ _
          exact hsame job
      · rw [hjobs]
        apply h.apart.put (fun _ _ => Job.Apart.symm)
        intro job hjob _ _ _ _
        obtain ⟨found, rfl⟩ := hwalk job hjob
        exact .of_no_locks (fun _ => rfl) (fun _ => rfl) (fun _ => rfl)

theorem World.Limited.start : World.Limited config .start := by
  refine ⟨⟨?_, ?_, List.nodup_nil⟩, Pool.All.empty, Pool.Pairwise.empty⟩
  · intro row hrow
    cases hrow
  · intro owner
    exact Nat.zero_le _

/-- In every state the committed rows keep the limits, and a put is refused for
its vault's limit only when its row would not fit beside the others. -/
theorem limits_hold (h : Runs.Reaches (World.step config) Runs.anything .start w) :
    (∀ row ∈ w.db.vaults, row.Within config) ∧
    (∀ owner, (w.db.owned owner).length ≤ config.maxVaultsPerUser) ∧
    ∀ id tx ran, w.jobs.job id = some (.write tx) →
      tx.run config (w.held config id) w.db w.blobs = some ran →
      ran.error = some (.status 507 quotaMessage) →
      ∃ row params body, w.db.find tx.vaultId = some row ∧ tx.call.request = .put params body ∧
        ∀ entry : FileEntry, entry.deleted = false → entry.size = body.length →
          config.maxVaultBytes < liveBytes (row.vault.files.insert params.path entry) := by
  have hlimited : w.Limited config :=
    h.invariant .start fun _ _ _ hbefore _ hstep => hbefore.step hstep
  refine ⟨hlimited.within.rows, hlimited.within.owners, ?_⟩
  intro id tx ran hjob hran herror
  obtain ⟨row, params, body, hrow, hrequest, hover⟩ :=
    WriteTx.Fits.quota (hlimited.fits id _ hjob) hran herror
  refine ⟨row, params, body, hrow, hrequest, ?_⟩
  intro entry hlive hsize
  rw [liveBytes_insert, hlive, hsize]
  exact hover

/-- A vault holds one byte. -/
def fullStorage : StorageConfig := { sampleStorage with maxVaultBytes := 1 }

def putMore : Request := .put ⟨"more", none, some "h", none⟩ [105]

/-- `note` is put, and then `more` as far as the sum. -/
def overfull : List Event :=
  signedUp ++ created 0 emptyVault.id ++ written 1 emptyVault.id ++
    .write emptyVault.id ⟨none, 2, Aead.zeroNonce, "user_1", putMore⟩ :: steps 2 3

/-- The next answer to the write `id`, its request, and the bytes its vault has. -/
def nextAnswer (events : List Event) (id : Nat) : Option (Option ApiError × Request × Nat) :=
  (Runs.run (World.step fullStorage) (fun _ _ => true) .start events).bind fun w =>
    match w.jobs.job id with
    | some (.write tx) =>
        (tx.run fullStorage (w.held fullStorage id) w.db w.blobs).map fun ran =>
          (ran.error, tx.call.request, liveBytes (w.db.files tx.vaultId))
    | _ => none

theorem overfull_is_refused : ∃ w row,
    Runs.Reaches (World.step fullStorage) Runs.anything .start w ∧ row ∈ w.db.vaults ∧
    liveBytes row.vault.files = 1 ∧ row.Within fullStorage ∧
    ∀ entry : FileEntry, entry.deleted = false → entry.size = 1 →
      1 < liveBytes (row.vault.files.insert "more" entry) := by
  have hanswer : nextAnswer overfull 2 =
      some (some (.status 507 quotaMessage), putMore, 1) := by decide +kernel
  obtain ⟨w, hrun, hanswer⟩ := Option.bind_eq_some_iff.mp hanswer
  split at hanswer
  next tx hjob =>
    obtain ⟨ran, hran, hseen⟩ := Option.map_eq_some_iff.mp hanswer
    obtain ⟨herror, hseen⟩ := Prod.mk.inj hseen
    obtain ⟨hmore, hbytes⟩ := Prod.mk.inj hseen
    have hreach : Runs.Reaches (World.step fullStorage) Runs.anything .start w :=
      Runs.Reaches.start.run (fun _ _ _ => trivial) hrun
    obtain ⟨hwithin, -, hquota⟩ := limits_hold hreach
    obtain ⟨row, params, body, hrow, hrequest, hover⟩ := hquota 2 tx ran hjob hran herror
    obtain ⟨rfl, rfl⟩ := Request.put.inj (hrequest.symm.trans hmore)
    rw [Db.files_of_find hrow] at hbytes
    have hmem := (Db.find_mem hrow).1
    exact ⟨w, row, hreach, hmem, hbytes, hwithin row hmem, hover⟩
  next => cases hanswer

end ObSink.Server.Storage
