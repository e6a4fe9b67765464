import ObSink.Server.Statements

/-! # The part of one account

The rows and blobs of one account, when no two accounts make up the same token,
session id, vault id or invite code. A statement that is for an account reads and
changes that part only, and leaves the parts of all others as they are.
-/

namespace ObSink.Server.Tables

/-- Whose each token hash, session id, vault id and invite code is. -/
structure Naming where
  token : Bytes → String
  session : String → String
  vault : String → String
  invite : String → Option String

/-- The rows keep to the names. v3 writes no member but the owner. -/
structure Db.Named (naming : Naming) (db : Db) : Prop where
  tokens : ∀ row ∈ db.sessions, naming.token row.tokenHash = row.userId
  sessionIds : ∀ row ∈ db.sessions, naming.session row.id = row.userId
  codes : ∀ row ∈ db.invites, naming.invite row.code = row.createdBy
  vaultIds : ∀ row ∈ db.vaults, naming.vault row.id = row.owner
  members : ∀ row ∈ db.members, naming.vault row.vaultId = row.userId
  holdings : ∀ row ∈ db.holdings, naming.vault row.vaultId = row.userId
  distinct : (db.vaults.map VaultRow.id).Nodup

/-- The rows and blobs of one account. -/
def Db.only (naming : Naming) (userId : String) (db : Db) : Db where
  users := db.users.filter (·.id = userId)
  devices := db.devices.filter (·.userId = userId)
  sessions := db.sessions.filter (·.userId = userId)
  invites := db.invites.filter (·.createdBy = some userId)
  vaults := db.vaults.filter (·.owner = userId)
  members := db.members.filter (·.userId = userId)
  holdings := db.holdings.filter (·.userId = userId)
  blobs vaultId := if naming.vault vaultId = userId then db.blobs vaultId else .empty

/-- What a statement is about is the account's. -/
def Statement.For (naming : Naming) (userId : String) : Statement → Prop
  | .session tokenHash _ => naming.token tokenHash = userId
  | .signIn id _ sessionId tokenHash _ =>
      id = userId ∧ naming.session sessionId = userId ∧ naming.token tokenHash = userId
  | .user id | .account id _ | .devices id | .deleteDevice id _ | .renameDevice id _ _
  | .invites id | .usage id | .role _ id | .vaultsOf id | .holdersOf id | .deleteVault _ id
  | .deleteVaultsOf id | .deleteUser id | .detach id _ _ | .manifest _ id _ => id = userId
  | .insertInvite code createdBy _ _ => createdBy = userId ∧ naming.invite code = some userId
  | .createVault row _ => row.owner = userId ∧ naming.vault row.id = userId
  | .renameVault vaultId _ | .removeBlobs vaultId | .files vaultId | .live vaultId _
  | .history vaultId _ _ => naming.vault vaultId = userId
  | .attach id _ vaultId _ _ => id = userId ∧ naming.vault vaultId = userId
  | .write _ call => call.userId = userId

/-- What a reply says of names. -/
def Statement.Fitting (naming : Naming) : (statement : Statement) → statement.Reply → Prop
  | .session tokenHash _, principal => ∀ found ∈ principal, found.userId = naming.token tokenHash
  | .role vaultId userId, found => found.isSome → naming.vault vaultId = userId
  | .deleteVaultsOf owner, vaultIds => ∀ vaultId ∈ vaultIds, naming.vault vaultId = owner
  | _, _ => True

variable {naming : Naming} {userId other : String} {db : Db}

/-! ## Reading a part -/

section Reading

@[simp] theorem Db.only_hasUser : (db.only naming userId).hasUser userId = db.hasUser userId := by
  refine Select.any_filter_of_imp fun row _ hrow => ?_
  simpa using hrow

@[simp] theorem Db.only_hasDevice (deviceId : String) :
    (db.only naming userId).hasDevice userId deviceId = db.hasDevice userId deviceId := by
  refine Select.any_filter_of_imp fun row _ hrow => ?_
  simp only [DeviceRow.isOf, Bool.and_eq_true, decide_eq_true_eq] at hrow ⊢
  exact hrow.1

theorem Db.only_hasVault (hnamed : db.Named naming) {vaultId : String}
    (hvault : naming.vault vaultId = userId) :
    (db.only naming userId).hasVault vaultId = db.hasVault vaultId := by
  refine Select.any_filter_of_imp fun row hmem hrow => ?_
  simp only [decide_eq_true_eq] at hrow ⊢
  rw [← hnamed.vaultIds row hmem, hrow, hvault]

@[simp] theorem Db.only_find_user :
    (db.only naming userId).users.find? (·.id = userId) = db.users.find? (·.id = userId) := by
  refine Select.find?_filter_of_imp fun row _ hrow => ?_
  simpa using hrow

theorem Db.only_accountRows :
    (db.only naming userId).accountRows userId = db.accountRows userId := by
  have hdevices : ∀ deviceId,
    (db.only naming userId).devices.find? (DeviceRow.isOf userId deviceId) =
      db.devices.find? (DeviceRow.isOf userId deviceId) := by
    intro deviceId
    refine Select.find?_filter_of_imp fun row _ hrow => ?_
    simp only [DeviceRow.isOf, Bool.and_eq_true, decide_eq_true_eq] at hrow ⊢
    exact hrow.1
  simp only [Db.accountRows, only_find_user, hdevices]

theorem Db.only_find_vault (hnamed : db.Named naming) {vaultId : String}
    (hvault : naming.vault vaultId = userId) :
    (db.only naming userId).vaults.find? (·.id = vaultId) = db.vaults.find? (·.id = vaultId) := by
  refine Select.find?_filter_of_imp fun row hmem hrow => ?_
  simp only [decide_eq_true_eq] at hrow ⊢
  rw [← hnamed.vaultIds row hmem, hrow, hvault]

/-- One vault of the account. -/
theorem Db.only_state (hnamed : db.Named naming) {vaultId : String}
    (hvault : naming.vault vaultId = userId) :
    (db.only naming userId).state vaultId = db.state vaultId := by
  have hmembers : (db.only naming userId).members.filter (·.vaultId = vaultId) =
      db.members.filter (·.vaultId = vaultId) := by
    refine Select.filter_filter_of_imp fun row hmem hrow => ?_
    simp only [decide_eq_true_eq] at hrow ⊢
    rw [← hnamed.members row hmem, hrow, hvault]
  have hblobs : (db.only naming userId).blobs vaultId = db.blobs vaultId := if_pos hvault
  simp only [Db.state, only_find_vault hnamed hvault, hmembers, hblobs]

theorem Db.only_sessions (hnamed : db.Named naming) {tokenHash : Bytes}
    (htoken : naming.token tokenHash = userId) (now : Nat) :
    ((db.only naming userId).sessions.find? fun row =>
      row.tokenHash = tokenHash ∧ now < row.expires) =
      db.sessions.find? fun row => row.tokenHash = tokenHash ∧ now < row.expires := by
  refine Select.find?_filter_of_imp fun row hmem hrow => ?_
  simp only [decide_eq_true_eq] at hrow ⊢
  rw [← hnamed.tokens row hmem, hrow.1, htoken]

/-- Reads of rows that carry the account's id. -/
theorem Db.only_filter {α : Type} {rows : List α} {owner : α → String} {test : α → Bool}
    (htest : ∀ row, test row = true → owner row = userId) :
    (rows.filter fun row => owner row = userId).filter test = rows.filter test :=
  Select.filter_filter_of_imp fun row _ hrow => by simpa using htest row hrow

theorem Db.only_members (vaultId : String) :
    (db.only naming userId).members.filter (MemberRow.isOf vaultId userId) =
      db.members.filter (MemberRow.isOf vaultId userId) :=
  only_filter fun row hrow => by
    simp only [MemberRow.isOf, Bool.and_eq_true, decide_eq_true_eq] at hrow
    exact hrow.2

/-- No member of another account's vault. -/
theorem Db.Named.no_member (hnamed : db.Named naming) {vaultId : String}
    (hvault : naming.vault vaultId ≠ userId) :
    db.members.filter (MemberRow.isOf vaultId userId) = [] := by
  refine List.filter_eq_nil_iff.mpr fun row hmem hrow => ?_
  simp only [MemberRow.isOf, Bool.and_eq_true, decide_eq_true_eq] at hrow
  exact hvault (by rw [← hrow.1, hnamed.members row hmem, hrow.2])

theorem Db.only_vaultsOf (hnamed : db.Named naming) :
    (db.only naming userId).vaultsOf userId = db.vaultsOf userId := by
  refine congrArg (ordered _)
    (Select.flatMap_filter (fun vault _ _ => ?_) fun vault hmem hrow => ?_)
  · rw [only_members]
  · have hvault : naming.vault vault.id ≠ userId := by
      rw [hnamed.vaultIds vault hmem]
      simpa using hrow
    rw [hnamed.no_member hvault, List.map_nil]

theorem Db.only_holdersOf (hnamed : db.Named naming) :
    (db.only naming userId).holdersOf userId = db.holdersOf userId := by
  refine congrArg (ordered _)
    (Select.flatMap_filter (fun holding _ hrow => ?_) fun holding hmem hrow => ?_)
  · have howner : holding.userId = userId := by simpa using hrow
    have hdevices : (db.only naming userId).devices.filter
        (DeviceRow.isOf holding.userId holding.deviceId) =
        db.devices.filter (DeviceRow.isOf holding.userId holding.deviceId) :=
      only_filter fun row hdevice => by
        simp only [DeviceRow.isOf, Bool.and_eq_true, decide_eq_true_eq] at hdevice
        exact hdevice.1.trans howner
    rw [only_members, hdevices]
  · have hvault : naming.vault holding.vaultId ≠ userId := by
      rw [hnamed.holdings holding hmem]
      simpa using hrow
    rw [hnamed.no_member hvault, List.flatMap_nil]

end Reading

/-! ## Changing rows of accounts -/

section Changing

theorem Db.only_updateDevice {deviceId : String} {change : DeviceRow → DeviceRow}
    (hkeep : ∀ row, (change row).userId = row.userId) :
    (db.updateDevice other deviceId change).only naming userId =
      (db.only naming userId).updateDevice other deviceId change :=
  congrArg (fun devices => { db.only naming userId with devices })
    (Select.filter_changed fun row _ => by rw [hkeep row])

theorem Db.only_updateDevice_of_ne {deviceId : String} {change : DeviceRow → DeviceRow}
    (hne : other ≠ userId) (hkeep : ∀ row, (change row).userId = row.userId) :
    (db.updateDevice other deviceId change).only naming userId = db.only naming userId := by
  have hdevices : (db.updateDevice other deviceId change).devices.filter (·.userId = userId) =
      (db.only naming userId).devices := by
    refine Select.filter_changed_other (fun row _ hrow => ?_) fun row _ => by rw [hkeep row]
    simp only [DeviceRow.isOf, Bool.and_eq_true, decide_eq_true_eq] at hrow
    simp [hrow.1, hne]
  exact congrArg (fun devices => { db.only naming userId with devices }) hdevices

theorem Db.only_setAccountRows (rows : Account.Rows UInt8) :
    (db.setAccountRows userId rows).only naming userId =
      (db.only naming userId).setAccountRows userId rows := by
  have husers : (db.setAccountRows userId rows).users.filter (·.id = userId) =
      ((db.only naming userId).setAccountRows userId rows).users :=
    Select.filter_changed fun row _ => rfl
  have hdevices : (db.setAccountRows userId rows).devices.filter (·.userId = userId) =
      ((db.only naming userId).setAccountRows userId rows).devices :=
    Select.filter_changed fun row _ => rfl
  exact congrArg₂ (fun users devices => { db.only naming userId with users, devices })
    husers hdevices

theorem Db.only_setAccountRows_of_ne (rows : Account.Rows UInt8) (hne : other ≠ userId) :
    (db.setAccountRows other rows).only naming userId = db.only naming userId := by
  have husers : (db.setAccountRows other rows).users.filter (·.id = userId) =
      (db.only naming userId).users :=
    Select.filter_changed_other (fun row _ hrow => by simp [hrow, hne]) fun row _ => rfl
  have hdevices : (db.setAccountRows other rows).devices.filter (·.userId = userId) =
      (db.only naming userId).devices :=
    Select.filter_changed_other (fun row _ hrow => by simp [hrow, hne]) fun row _ => rfl
  exact congrArg₂ (fun users devices => { db.only naming userId with users, devices })
    husers hdevices

theorem Db.only_upsertDevice (device : DeviceIdentity) (now : Nat) :
    (db.upsertDevice userId device now).only naming userId =
      (db.only naming userId).upsertDevice userId device now := by
  simp only [Db.upsertDevice, only_hasDevice]
  split
  next => exact only_updateDevice fun row => rfl
  next =>
    refine congrArg (fun devices => { db.only naming userId with devices }) ?_
    simp [List.filter_append, Db.only]

theorem Db.only_upsertDevice_of_ne (device : DeviceIdentity) (now : Nat) (hne : other ≠ userId) :
    (db.upsertDevice other device now).only naming userId = db.only naming userId := by
  unfold Db.upsertDevice
  split
  next => exact only_updateDevice_of_ne hne fun row => rfl
  next =>
    refine congrArg (fun devices => { db.only naming userId with devices }) ?_
    simp [List.filter_append, hne]

theorem Db.only_replaceSession {row : SessionRow} (hrow : row.userId = userId) :
    (db.replaceSession row).only naming userId = (db.only naming userId).replaceSession row := by
  refine congrArg (fun sessions => { db.only naming userId with sessions }) ?_
  simp [Db.replaceSession, Db.only, List.filter_append, hrow, Bool.and_comm]

theorem Db.only_replaceSession_of_ne {row : SessionRow} (hrow : row.userId ≠ userId) :
    (db.replaceSession row).only naming userId = db.only naming userId := by
  refine congrArg (fun sessions => { db.only naming userId with sessions }) ?_
  change List.filter _ (_ ++ [row]) = _
  rw [List.filter_append, Select.filter_filter_of_imp]
  · simp [hrow]
  · intro old _ hold
    simp only [decide_eq_true_eq] at hold
    simp [SessionRow.isOf, hold, Ne.symm hrow]

theorem Db.only_sessionTaken (hnamed : db.Named naming) {row : SessionRow}
    (hid : naming.session row.id = userId)
    (htoken : naming.token row.tokenHash = userId) :
    (db.only naming userId).sessionTaken row = db.sessionTaken row := by
  refine Select.any_filter_of_imp fun old hmem hold => ?_
  simp only [Bool.and_eq_true, Bool.or_eq_true, decide_eq_true_eq] at hold ⊢
  rcases hold.2 with hsame | hsame
  · rw [← hnamed.sessionIds old hmem, hsame, hid]
  · rw [← hnamed.tokens old hmem, hsame, htoken]

theorem Db.only_dropDevice (deviceId : String) :
    (db.dropDevice userId deviceId).only naming userId =
      (db.only naming userId).dropDevice userId deviceId := by
  simp only [Db.dropDevice, Db.only, Select.filter_comm]

theorem Db.only_dropDevice_of_ne (deviceId : String) (hne : other ≠ userId) :
    (db.dropDevice other deviceId).only naming userId = db.only naming userId := by
  simp only [Db.dropDevice, Db.only, Db.mk.injEq, true_and, and_true]
  refine ⟨?_, ?_, ?_⟩ <;>
    refine Select.filter_filter_of_imp fun row _ hrow => ?_ <;>
    simp only [decide_eq_true_eq] at hrow <;>
    simp [DeviceRow.isOf, SessionRow.isOf, hrow, Ne.symm hne]

theorem Db.only_dropVaults {gone : VaultRow → Bool}
    (hgone : ∀ row, gone row = true → row.owner = userId) :
    (db.dropVaults gone).only naming userId = (db.only naming userId).dropVaults gone := by
  have hids : (db.only naming userId).vaults.filter gone = db.vaults.filter gone :=
    Select.filter_filter_of_imp fun row _ hrow => by simp [hgone row hrow]
  simp only [Db.dropVaults, hids]
  simp only [Db.only, Select.filter_comm]

theorem Db.only_dropVaults_of_ne (hnamed : db.Named naming) (hne : other ≠ userId)
    {gone : VaultRow → Bool} (hgone : ∀ row, gone row = true → row.owner = other) :
    (db.dropVaults gone).only naming userId = db.only naming userId := by
  have hids : ∀ vaultId, naming.vault vaultId = userId →
      vaultId ∉ (db.vaults.filter gone).map VaultRow.id := by
    intro vaultId hvault hmem
    obtain ⟨row, hrow, rfl⟩ := List.mem_map.mp hmem
    obtain ⟨hrow, hdrop⟩ := List.mem_filter.mp hrow
    rw [hnamed.vaultIds row hrow, hgone row hdrop] at hvault
    exact hne hvault
  simp only [Db.dropVaults, Db.only, Db.mk.injEq, true_and, and_true]
  refine ⟨?_, ?_, ?_⟩
  · refine Select.filter_filter_of_imp fun row _ hrow => ?_
    simp only [decide_eq_true_eq] at hrow
    rw [Bool.not_eq_true']
    exact Bool.eq_false_iff.mpr fun hdrop => hne (hrow ▸ (hgone row hdrop).symm)
  · refine Select.filter_filter_of_imp fun row hmem hrow => ?_
    simp only [decide_eq_true_eq] at hrow ⊢
    exact hids row.vaultId ((hnamed.members row hmem).trans hrow)
  · refine Select.filter_filter_of_imp fun row hmem hrow => ?_
    simp only [decide_eq_true_eq] at hrow ⊢
    exact hids row.vaultId ((hnamed.holdings row hmem).trans hrow)

theorem Db.only_dropUser :
    (db.dropUser userId).only naming userId = (db.only naming userId).dropUser userId := by
  have hvaults : (db.dropVaults fun row => row.owner = userId).only naming userId =
      (db.only naming userId).dropVaults fun row => row.owner = userId :=
    only_dropVaults fun row hrow => by simpa using hrow
  unfold Db.dropUser
  rw [← hvaults]
  simp only [Db.only, Select.filter_comm]

theorem Db.only_dropUser_of_ne (hnamed : db.Named naming) (hne : other ≠ userId) :
    (db.dropUser other).only naming userId = db.only naming userId := by
  have hvaults : (db.dropVaults fun row => row.owner = other).only naming userId =
      db.only naming userId :=
    only_dropVaults_of_ne hnamed hne fun row hrow => by simpa using hrow
  rw [← hvaults]
  simp only [Db.dropUser, Db.only, Db.mk.injEq, true_and, and_true]
  refine ⟨?_, ?_, ?_, ?_, ?_, ?_⟩ <;>
    refine Select.filter_filter_of_imp fun row _ hrow => ?_ <;>
    simp only [decide_eq_true_eq] at hrow ⊢ <;>
    simp [hrow, Ne.symm hne]

end Changing

/-! ## Changing vaults -/

section Vaults

variable {vaultId : String}

theorem Db.only_updateVault {change : VaultRow → VaultRow}
    (hkeep : ∀ row, (change row).owner = row.owner) :
    (db.updateVault vaultId change).only naming userId =
      (db.only naming userId).updateVault vaultId change :=
  congrArg (fun vaults => { db.only naming userId with vaults })
    (Select.filter_changed fun row _ => by rw [hkeep row])

theorem Db.only_updateVault_of_ne (hnamed : db.Named naming)
    (hvault : naming.vault vaultId ≠ userId) {change : VaultRow → VaultRow}
    (hkeep : ∀ row, (change row).owner = row.owner) :
    (db.updateVault vaultId change).only naming userId = db.only naming userId := by
  have hvaults : (db.updateVault vaultId change).vaults.filter (·.owner = userId) =
      (db.only naming userId).vaults := by
    refine Select.filter_changed_other (fun row hmem hrow => ?_) fun row _ => by rw [hkeep row]
    rw [← hrow, hnamed.vaultIds row hmem] at hvault
    simpa using hvault
  exact congrArg (fun vaults => { db.only naming userId with vaults }) hvaults

theorem Db.only_setBlobs (hvault : naming.vault vaultId = userId) (store : BlobStore) :
    (db.setBlobs vaultId store).only naming userId =
      (db.only naming userId).setBlobs vaultId store := by
  refine congrArg (fun blobs => { db.only naming userId with blobs }) (funext fun id => ?_)
  by_cases hid : id = vaultId
  · subst hid
    simp [Db.setBlobs, hvault]
  · simp [Db.setBlobs, Db.only, Function.update_of_ne hid]

theorem Db.only_setBlobs_of_ne (hvault : naming.vault vaultId ≠ userId) (store : BlobStore) :
    (db.setBlobs vaultId store).only naming userId = db.only naming userId := by
  refine congrArg (fun blobs => { db.only naming userId with blobs }) (funext fun id => ?_)
  by_cases hid : id = vaultId
  · subst hid
    simp [hvault]
  · simp [Db.setBlobs, Function.update_of_ne hid]

theorem Db.only_setState (hvault : naming.vault vaultId = userId) (state : State) :
    (db.setState vaultId state).only naming userId =
      (db.only naming userId).setState vaultId state := by
  unfold Db.setState
  rw [only_setBlobs hvault, only_updateVault]
  exact fun row => rfl

theorem Db.only_setState_of_ne (hnamed : db.Named naming) (hvault : naming.vault vaultId ≠ userId)
    (state : State) : (db.setState vaultId state).only naming userId = db.only naming userId := by
  unfold Db.setState
  rw [only_setBlobs_of_ne hvault, only_updateVault_of_ne hnamed hvault]
  exact fun row => rfl

/-- A state that is written back as it was read. -/
theorem Db.setState_state (hnamed : db.Named naming) :
    db.setState vaultId (db.state vaultId) = db := by
  have hvaults : (db.setState vaultId (db.state vaultId)).vaults = db.vaults := by
    refine Select.changed_eq_self fun row hmem hrow => ?_
    have hfind := Select.find?_key hnamed.distinct hmem
    rw [hrow] at hfind
    simp [Db.state, hfind]
  have hblobs : (db.setState vaultId (db.state vaultId)).blobs = db.blobs :=
    Function.update_eq_self vaultId db.blobs
  exact congrArg₂ (fun vaults blobs => { db with vaults, blobs }) hvaults hblobs

/-! ## Devices that hold a vault -/

theorem Db.only_updateHolding {deviceId : String} {change : HoldingRow → HoldingRow}
    (hkeep : ∀ row, (change row).userId = row.userId) :
    (db.updateHolding other deviceId vaultId change).only naming userId =
      (db.only naming userId).updateHolding other deviceId vaultId change :=
  congrArg (fun holdings => { db.only naming userId with holdings })
    (Select.filter_changed fun row _ => by rw [hkeep row])

theorem Db.only_updateHolding_of_ne {deviceId : String} {change : HoldingRow → HoldingRow}
    (hne : other ≠ userId) (hkeep : ∀ row, (change row).userId = row.userId) :
    (db.updateHolding other deviceId vaultId change).only naming userId =
      db.only naming userId := by
  have hholdings : (db.updateHolding other deviceId vaultId change).holdings.filter
      (·.userId = userId) = (db.only naming userId).holdings := by
    refine Select.filter_changed_other (fun row _ hrow => ?_) fun row _ => by rw [hkeep row]
    simp only [HoldingRow.isOf, Bool.and_eq_true, decide_eq_true_eq] at hrow
    simp [hrow.1.1, hne]
  exact congrArg (fun holdings => { db.only naming userId with holdings }) hholdings

theorem Db.only_addHolding {row : HoldingRow} (hrow : row.userId = userId) :
    (db.addHolding row).only naming userId = (db.only naming userId).addHolding row := by
  refine congrArg (fun holdings => { db.only naming userId with holdings }) ?_
  simp [Db.addHolding, Db.only, List.filter_append, hrow]

theorem Db.only_addHolding_of_ne {row : HoldingRow} (hrow : row.userId ≠ userId) :
    (db.addHolding row).only naming userId = db.only naming userId := by
  refine congrArg (fun holdings => { db.only naming userId with holdings }) ?_
  simp [Db.addHolding, List.filter_append, hrow]

theorem Db.only_attach (hnamed : db.Named naming) (hvault : naming.vault vaultId = userId)
    (deviceId : String) (now : Nat) (revision : Option Nat) :
    (db.only naming userId).attach userId deviceId vaultId now revision =
      (db.attach userId deviceId vaultId now revision).map (Db.only naming userId) := by
  have hholds : (db.only naming userId).holdings.any (HoldingRow.isOf userId deviceId vaultId) =
      db.holdings.any (HoldingRow.isOf userId deviceId vaultId) := by
    refine Select.any_filter_of_imp fun row _ hrow => ?_
    simp only [HoldingRow.isOf, Bool.and_eq_true, decide_eq_true_eq] at hrow ⊢
    exact hrow.1.1
  simp only [Db.attach, hholds, only_hasDevice, only_hasVault hnamed hvault]
  split
  next =>
    cases revision with
    | none =>
        rw [Option.map_some, only_updateDevice]
        exact fun row => rfl
    | some revision =>
        rw [Option.map_some, only_updateDevice, only_updateHolding]
        · exact fun row => rfl
        · exact fun row => rfl
  next =>
    split
    next =>
      rw [Option.map_some, only_updateDevice, only_addHolding]
      · rfl
      · exact fun row => rfl
    next => rfl

theorem Db.only_attach_of_ne (hne : other ≠ userId) {deviceId : String} {now : Nat}
    {revision : Option Nat} {after : Db}
    (hattach : db.attach other deviceId vaultId now revision = some after) :
    after.only naming userId = db.only naming userId := by
  simp only [Db.attach] at hattach
  split at hattach
  next =>
    cases revision with
    | none =>
        obtain rfl := Option.some.inj hattach
        exact only_updateDevice_of_ne hne fun row => rfl
    | some revision =>
        obtain rfl := Option.some.inj hattach
        rw [only_updateDevice_of_ne hne, only_updateHolding_of_ne hne]
        · exact fun row => rfl
        · exact fun row => rfl
  next =>
    split at hattach
    next =>
      obtain rfl := Option.some.inj hattach
      rw [only_updateDevice_of_ne hne, only_addHolding_of_ne hne]
      exact fun row => rfl
    next => cases hattach

theorem Db.only_detach (deviceId : String) :
    (db.detach userId deviceId vaultId).only naming userId =
      (db.only naming userId).detach userId deviceId vaultId := by
  simp only [Db.detach, Db.only, Select.filter_comm]

theorem Db.only_detach_of_ne (hne : other ≠ userId) (deviceId : String) :
    (db.detach other deviceId vaultId).only naming userId = db.only naming userId := by
  have hholdings : (db.detach other deviceId vaultId).holdings.filter (·.userId = userId) =
      (db.only naming userId).holdings := by
    refine Select.filter_filter_of_imp fun row _ hrow => ?_
    simp only [decide_eq_true_eq] at hrow
    simp [HoldingRow.isOf, hrow, Ne.symm hne]
  exact congrArg (fun holdings => { db.only naming userId with holdings }) hholdings

end Vaults

/-! ## Transactions -/

section Transactions

theorem Db.only_signIn (hnamed : db.Named naming) (device : DeviceIdentity) {sessionId : String}
    {tokenHash : Bytes} (hid : naming.session sessionId = userId)
    (htoken : naming.token tokenHash = userId) (now : Nat) :
    (db.only naming userId).signIn userId device sessionId tokenHash now =
      (db.signIn userId device sessionId tokenHash now).map (Db.only naming userId) := by
  simp only [Db.signIn, only_hasUser]
  rw [only_sessionTaken hnamed hid htoken]
  split
  next =>
    rw [Option.map_some, only_replaceSession, only_upsertDevice]
    rfl
  next => rfl

theorem Db.only_signIn_of_ne (hne : other ≠ userId) {device : DeviceIdentity} {sessionId : String}
    {tokenHash : Bytes} {now : Nat} {after : Db}
    (hsign : db.signIn other device sessionId tokenHash now = some after) :
    after.only naming userId = db.only naming userId := by
  simp only [Db.signIn] at hsign
  split at hsign
  next =>
    obtain rfl := Option.some.inj hsign
    rw [only_replaceSession_of_ne hne, only_upsertDevice_of_ne device now hne]
  next => cases hsign

theorem Db.only_insertInvite (hnamed : db.Named naming) {code : String}
    (hcode : naming.invite code = some userId) (now expires : Nat) :
    (db.only naming userId).insertInvite code userId now expires =
      ((db.insertInvite code userId now expires).1,
        (db.insertInvite code userId now expires).2.only naming userId) := by
  have htaken : (db.only naming userId).invites.any (·.code = code) =
      db.invites.any (·.code = code) := by
    refine Select.any_filter_of_imp fun row hmem hrow => ?_
    simp only [decide_eq_true_eq] at hrow ⊢
    rw [← hnamed.codes row hmem, hrow, hcode]
  simp only [Db.insertInvite, htaken, only_hasUser]
  split
  next => rfl
  next =>
    split
    next =>
      refine congrArg (Prod.mk _) (congrArg
        (fun invites => { db.only naming userId with invites }) ?_)
      simp [Db.only, List.filter_append]
    next => rfl

theorem Db.only_insertInvite_of_ne (hne : other ≠ userId) (code : String) (now expires : Nat) :
    (db.insertInvite code other now expires).2.only naming userId = db.only naming userId := by
  unfold Db.insertInvite
  split
  next => rfl
  next =>
    split
    next =>
      refine congrArg (fun invites => { db.only naming userId with invites }) ?_
      simp [List.filter_append, hne]
    next => rfl

theorem Db.only_createVault (hnamed : db.Named naming) {row : VaultRow}
    (howner : row.owner = userId) (hvault : naming.vault row.id = userId) (maxVaults : Nat)
    (wrappedKey : Bytes) :
    (db.only naming userId).createVault maxVaults row wrappedKey =
      ((db.createVault maxVaults row wrappedKey).1,
        (db.createVault maxVaults row wrappedKey).2.only naming userId) := by
  subst howner
  have howned : (db.only naming row.owner).vaults.filter (·.owner = row.owner) =
      db.vaults.filter (·.owner = row.owner) :=
    Select.filter_filter_of_imp fun _ _ hrow => hrow
  simp only [Db.createVault, only_find_user, howned, only_hasVault hnamed hvault]
  repeat' split
  all_goals first | rfl | skip
  refine congrArg (Prod.mk _) (congrArg₂
    (fun vaults members => { db.only naming row.owner with vaults, members }) ?_ ?_)
  · simp [Db.only, List.filter_append]
  · simp [Db.only, List.filter_append]

theorem Db.only_createVault_of_ne {row : VaultRow} (hne : row.owner ≠ userId) (maxVaults : Nat)
    (wrappedKey : Bytes) :
    (db.createVault maxVaults row wrappedKey).2.only naming userId = db.only naming userId := by
  unfold Db.createVault
  repeat' split
  all_goals first | rfl | skip
  refine congrArg₂ (fun vaults members => { db.only naming userId with vaults, members }) ?_ ?_
  · simp [List.filter_append, hne]
  · simp [List.filter_append, hne]

end Transactions

/-! ## The names are kept -/

section Named

theorem Db.Named.mono (hnamed : db.Named naming) {after : Db}
    (hsessions : after.sessions ⊆ db.sessions) (hinvites : after.invites ⊆ db.invites)
    (hvaults : after.vaults.Sublist db.vaults) (hmembers : after.members ⊆ db.members)
    (hholdings : after.holdings ⊆ db.holdings) : after.Named naming where
  tokens row hrow := hnamed.tokens row (hsessions hrow)
  sessionIds row hrow := hnamed.sessionIds row (hsessions hrow)
  codes row hrow := hnamed.codes row (hinvites hrow)
  vaultIds row hrow := hnamed.vaultIds row (hvaults.subset hrow)
  members row hrow := hnamed.members row (hmembers hrow)
  holdings row hrow := hnamed.holdings row (hholdings hrow)
  distinct := (hvaults.map _).nodup hnamed.distinct

/-- A change of nothing that has a name. -/
theorem Db.Named.congr (hnamed : db.Named naming) {after : Db}
    (hsessions : after.sessions = db.sessions) (hinvites : after.invites = db.invites)
    (hvaults : after.vaults = db.vaults) (hmembers : after.members = db.members)
    (hholdings : after.holdings = db.holdings) : after.Named naming :=
  hnamed.mono (hsessions ▸ List.Subset.refl _) (hinvites ▸ List.Subset.refl _)
    (hvaults ▸ List.Sublist.refl _) (hmembers ▸ List.Subset.refl _)
    (hholdings ▸ List.Subset.refl _)

theorem Db.Named.only (hnamed : db.Named naming) : (db.only naming userId).Named naming :=
  hnamed.mono (List.filter_subset_self _) (List.filter_subset_self _) List.filter_sublist
    (List.filter_subset_self _) (List.filter_subset_self _)

theorem Db.Named.updateDevice (hnamed : db.Named naming) (deviceId : String)
    (change : DeviceRow → DeviceRow) : (db.updateDevice userId deviceId change).Named naming :=
  hnamed.congr rfl rfl rfl rfl rfl

theorem Db.Named.upsertDevice (hnamed : db.Named naming) (device : DeviceIdentity) (now : Nat) :
    (db.upsertDevice userId device now).Named naming := by
  unfold Db.upsertDevice
  split
  next => exact hnamed.updateDevice _ _
  next => exact hnamed.congr rfl rfl rfl rfl rfl

theorem Db.Named.replaceSession (hnamed : db.Named naming) {row : SessionRow}
    (htoken : naming.token row.tokenHash = row.userId)
    (hid : naming.session row.id = row.userId) : (db.replaceSession row).Named naming where
  tokens := by
    intro found hfound
    rcases List.mem_append.mp hfound with hold | hnew
    · exact hnamed.tokens found (List.mem_of_mem_filter hold)
    · exact List.mem_singleton.mp hnew ▸ htoken
  sessionIds := by
    intro found hfound
    rcases List.mem_append.mp hfound with hold | hnew
    · exact hnamed.sessionIds found (List.mem_of_mem_filter hold)
    · exact List.mem_singleton.mp hnew ▸ hid
  codes := hnamed.codes
  vaultIds := hnamed.vaultIds
  members := hnamed.members
  holdings := hnamed.holdings
  distinct := hnamed.distinct

theorem Db.Named.signIn (hnamed : db.Named naming) {device : DeviceIdentity} {sessionId : String}
    {tokenHash : Bytes} {now : Nat} (hid : naming.session sessionId = userId)
    (htoken : naming.token tokenHash = userId) {after : Db}
    (hsign : db.signIn userId device sessionId tokenHash now = some after) :
    after.Named naming := by
  simp only [Db.signIn] at hsign
  split at hsign
  next =>
    obtain rfl := Option.some.inj hsign
    exact (hnamed.upsertDevice device now).replaceSession htoken hid
  next => cases hsign

theorem Db.Named.insertInvite (hnamed : db.Named naming) {code : String}
    (hcode : naming.invite code = some userId) (now expires : Nat) :
    (db.insertInvite code userId now expires).2.Named naming := by
  unfold Db.insertInvite
  split
  next => exact hnamed
  next =>
    split
    next =>
      refine ⟨hnamed.tokens, hnamed.sessionIds, fun row hrow => ?_, hnamed.vaultIds,
        hnamed.members, hnamed.holdings, hnamed.distinct⟩
      rcases List.mem_append.mp hrow with hold | hnew
      · exact hnamed.codes row hold
      · exact List.mem_singleton.mp hnew ▸ hcode
    next => exact hnamed

theorem Db.Named.dropDevice (hnamed : db.Named naming) (deviceId : String) :
    (db.dropDevice userId deviceId).Named naming :=
  hnamed.mono (List.filter_subset_self _) (List.Subset.refl _) (List.Sublist.refl _)
    (List.Subset.refl _) (List.filter_subset_self _)

theorem Db.Named.dropVaults (hnamed : db.Named naming) (gone : VaultRow → Bool) :
    (db.dropVaults gone).Named naming :=
  hnamed.mono (List.Subset.refl _) (List.Subset.refl _) List.filter_sublist
    (List.filter_subset_self _) (List.filter_subset_self _)

theorem Db.Named.dropUser (hnamed : db.Named naming) : (db.dropUser userId).Named naming :=
  (hnamed.dropVaults fun row => row.owner = userId).mono (List.filter_subset_self _)
    (List.filter_subset_self _) (List.Sublist.refl _) (List.filter_subset_self _)
    (List.filter_subset_self _)

theorem Db.Named.createVault (hnamed : db.Named naming) {row : VaultRow}
    (hvault : naming.vault row.id = row.owner) (maxVaults : Nat) (wrappedKey : Bytes) :
    (db.createVault maxVaults row wrappedKey).2.Named naming := by
  unfold Db.createVault
  repeat' split
  all_goals first | exact hnamed | skip
  next htaken =>
    refine ⟨hnamed.tokens, hnamed.sessionIds, hnamed.codes, fun found hfound => ?_,
      fun found hfound => ?_, hnamed.holdings, ?_⟩
    · rcases List.mem_append.mp hfound with hold | hnew
      · exact hnamed.vaultIds found hold
      · exact List.mem_singleton.mp hnew ▸ hvault
    · rcases List.mem_append.mp hfound with hold | hnew
      · exact hnamed.members found hold
      · exact List.mem_singleton.mp hnew ▸ hvault
    · rw [List.map_append, List.nodup_append]
      refine ⟨hnamed.distinct, List.nodup_singleton _, ?_⟩
      rintro id hid other hother rfl
      obtain ⟨found, hfound, rfl⟩ := List.mem_map.mp hid
      refine htaken (List.any_eq_true.mpr ⟨found, hfound, ?_⟩)
      simpa using List.mem_singleton.mp hother

theorem Db.Named.updateVault (hnamed : db.Named naming) (vaultId : String)
    {change : VaultRow → VaultRow} (hid : ∀ row, (change row).id = row.id)
    (howner : ∀ row, (change row).owner = row.owner) :
    (db.updateVault vaultId change).Named naming where
  tokens := hnamed.tokens
  sessionIds := hnamed.sessionIds
  codes := hnamed.codes
  vaultIds := Select.forall_changed hnamed.vaultIds fun row _ hrow => by rw [hid, howner, hrow]
  members := hnamed.members
  holdings := hnamed.holdings
  distinct := by
    have hids : (db.updateVault vaultId change).vaults.map VaultRow.id =
        db.vaults.map VaultRow.id := Select.map_changed fun row _ => hid row
    rw [hids]
    exact hnamed.distinct

theorem Db.Named.setBlobs (hnamed : db.Named naming) (vaultId : String) (store : BlobStore) :
    (db.setBlobs vaultId store).Named naming :=
  hnamed.congr rfl rfl rfl rfl rfl

theorem Db.Named.setState (hnamed : db.Named naming) (vaultId : String) (state : State) :
    (db.setState vaultId state).Named naming := by
  refine Named.setBlobs ?_ vaultId state.blobs
  refine Named.updateVault hnamed vaultId ?_ ?_
  · exact fun row => rfl
  · exact fun row => rfl

theorem Db.Named.updateHolding (hnamed : db.Named naming) {deviceId vaultId : String}
    {change : HoldingRow → HoldingRow}
    (hkeep : ∀ row, (change row).userId = row.userId ∧ (change row).vaultId = row.vaultId) :
    (db.updateHolding userId deviceId vaultId change).Named naming where
  tokens := hnamed.tokens
  sessionIds := hnamed.sessionIds
  codes := hnamed.codes
  vaultIds := hnamed.vaultIds
  members := hnamed.members
  holdings := Select.forall_changed hnamed.holdings fun row _ hrow => by
    rw [(hkeep row).1, (hkeep row).2, hrow]
  distinct := hnamed.distinct

theorem Db.Named.addHolding (hnamed : db.Named naming) {row : HoldingRow}
    (hvault : naming.vault row.vaultId = row.userId) : (db.addHolding row).Named naming where
  tokens := hnamed.tokens
  sessionIds := hnamed.sessionIds
  codes := hnamed.codes
  vaultIds := hnamed.vaultIds
  members := hnamed.members
  holdings := by
    intro found hfound
    rcases List.mem_append.mp hfound with hold | hnew
    · exact hnamed.holdings found hold
    · exact List.mem_singleton.mp hnew ▸ hvault
  distinct := hnamed.distinct

theorem Db.Named.attach (hnamed : db.Named naming) {deviceId vaultId : String}
    (hvault : naming.vault vaultId = userId) {now : Nat} {revision : Option Nat} {after : Db}
    (hattach : db.attach userId deviceId vaultId now revision = some after) :
    after.Named naming := by
  simp only [Db.attach] at hattach
  split at hattach
  next =>
    cases revision with
    | none =>
        obtain rfl := Option.some.inj hattach
        exact hnamed.updateDevice _ _
    | some revision =>
        obtain rfl := Option.some.inj hattach
        refine Named.updateDevice ?_ _ _
        exact Named.updateHolding hnamed fun row => ⟨rfl, rfl⟩
  next =>
    split at hattach
    next =>
      obtain rfl := Option.some.inj hattach
      exact (hnamed.addHolding hvault).updateDevice _ _
    next => cases hattach

theorem Db.Named.detach (hnamed : db.Named naming) (deviceId vaultId : String) :
    (db.detach userId deviceId vaultId).Named naming :=
  hnamed.mono (List.Subset.refl _) (List.Subset.refl _) (List.Sublist.refl _)
    (List.Subset.refl _) (List.filter_subset_self _)

theorem Db.Named.call (hnamed : db.Named naming) (call : AccountCall) :
    (call.run userId db).2.Named naming := by
  unfold AccountCall.run
  split
  next => exact hnamed.congr rfl rfl rfl rfl rfl
  next => exact hnamed

end Named

/-! ## Calls and writes -/

section Calls

theorem Db.only_call (call : AccountCall) :
    call.run userId (db.only naming userId) =
      ((call.run userId db).1, (call.run userId db).2.only naming userId) := by
  simp only [AccountCall.run, only_hasUser, only_accountRows]
  split
  next => rw [only_setAccountRows]
  next => rfl

theorem Db.only_call_of_ne (hne : other ≠ userId) (call : AccountCall) :
    (call.run other db).2.only naming userId = db.only naming userId := by
  unfold AccountCall.run
  split
  next => exact only_setAccountRows_of_ne _ hne
  next => rfl

theorem lockVault_stranger (fault : Option Fault) (vaultId caller : String) :
    ∃ error, ∀ vault : Vault, vault.id = vaultId → caller ∉ vault.members →
      lockVault fault vault caller = .error error := by
  simp only [lockVault, requireMember, bind, Except.bind, throw, throwThe, MonadExceptOf.throw,
    pure, Except.pure]
  by_cases hid : validVaultId vaultId = false
  · refine ⟨.status 404 "vault not found", fun vault hvault _ => ?_⟩
    simp [hvault, hid]
  · cases hmember : attempt fault .requireMember with
    | error message =>
        refine ⟨.internal message, fun vault hvault _ => ?_⟩
        simp [hvault, hid, internally]
    | ok value =>
        refine ⟨.status 404 "vault not found", fun vault hvault hcaller => ?_⟩
        simp [hvault, hid, internally, hcaller]

/-- A write by someone who is not a member is refused before anything of the
vault but its id is read. -/
theorem serve_stranger (config : Config) (call : Call) (vaultId : String) :
    ∃ error, ∀ state : State, state.vault.id = vaultId → call.userId ∉ state.vault.members →
      call.serve config state = (.error error, state) := by
  obtain ⟨fault, now, nonce, caller, request⟩ := call
  obtain ⟨refusal, hlock⟩ := lockVault_stranger fault vaultId caller
  cases request with
  | put params body =>
      have hcheck : ∃ error, ∀ vault : Vault, vault.id = vaultId → caller ∉ vault.members →
          checkPut config fault vault caller params body.length = .error error := by
        simp only [checkPut, bind, Except.bind, throw, throwThe, MonadExceptOf.throw]
        by_cases hpath : validPath params.path = false
        · exact ⟨_, fun vault _ _ => by simp only [hpath, ↓reduceIte]; rfl⟩
        · cases params.hash with
          | none => exact ⟨_, fun vault _ _ => by simp only [hpath]; rfl⟩
          | some contentHash =>
              cases hbegin : attempt fault .begin with
              | error message =>
                  exact ⟨.internal message, fun vault _ _ => by simp [hpath, internally, pure,
                    Except.pure]⟩
              | ok value =>
                  refine ⟨refusal, fun vault hvault hcaller => ?_⟩
                  simp [hpath, internally, hlock vault hvault hcaller, pure, Except.pure]
      obtain ⟨error, hcheck⟩ := hcheck
      refine ⟨error, fun state hid hcaller => ?_⟩
      simp only [Call.serve, applyRequest, applyPut, admitPut, hcheck state.vault hid hcaller]
  | delete path parentHash =>
      have hcheck : ∃ error, ∀ vault : Vault, vault.id = vaultId → caller ∉ vault.members →
          checkDelete fault vault caller path = .error error := by
        simp only [checkDelete, bind, Except.bind, throw, throwThe, MonadExceptOf.throw]
        by_cases hpath : validPath path = false
        · exact ⟨_, fun vault _ _ => by simp only [hpath, ↓reduceIte]; rfl⟩
        · cases hbegin : attempt fault .begin with
          | error message =>
              exact ⟨.internal message, fun vault _ _ => by simp [hpath, internally]⟩
          | ok value =>
              refine ⟨refusal, fun vault hvault hcaller => ?_⟩
              simp [hpath, internally, hlock vault hvault hcaller]
      obtain ⟨error, hcheck⟩ := hcheck
      refine ⟨error, fun state hid hcaller => ?_⟩
      simp only [Call.serve, applyRequest, applyDelete, admitDelete, hcheck state.vault hid hcaller]

theorem Db.Named.notMem_members (hnamed : db.Named naming) {vaultId caller : String}
    (hvault : naming.vault vaultId ≠ caller) : caller ∉ (db.state vaultId).vault.members := by
  intro hmem
  obtain ⟨row, hrow, rfl⟩ := List.mem_map.mp hmem
  obtain ⟨hrow, hid⟩ := List.mem_filter.mp hrow
  simp only [decide_eq_true_eq] at hid
  exact hvault (hid ▸ hnamed.members row hrow)

theorem getManifest_stranger {vault : Vault} {caller : String} (hcaller : caller ∉ vault.members)
    (ifNoneMatch : Option String) :
    getManifest vault caller ifNoneMatch = .error (.status 404 "vault not found") := by
  have hmember : requireMember none vault caller = .error (.status 404 "vault not found") := by
    simp only [requireMember, attempt_none, internally_ok, bind, Except.bind, throw, throwThe,
      MonadExceptOf.throw]
    by_cases hid : validVaultId vault.id = false
    · simp [hid]
    · simp [hid, hcaller]
  simp only [getManifest, hmember]

/-- The caller's own call for a vault: the account's, or refused either way. -/
theorem Db.only_write (hnamed : db.Named naming) (config : Config) {call : Call}
    (hcall : call.userId = userId) (vaultId : String) :
    (call.serve config ((db.only naming userId).state vaultId)).1 =
      (call.serve config (db.state vaultId)).1 ∧
    (db.only naming userId).setState vaultId
        (call.serve config ((db.only naming userId).state vaultId)).2 =
      (db.setState vaultId (call.serve config (db.state vaultId)).2).only naming userId := by
  by_cases hvault : naming.vault vaultId = userId
  · rw [only_state hnamed hvault, only_setState hvault]
    exact ⟨rfl, rfl⟩
  · obtain ⟨error, hrefused⟩ := serve_stranger config call vaultId
    have hcaller : naming.vault vaultId ≠ call.userId := hcall ▸ hvault
    rw [hrefused (db.state vaultId) rfl (hnamed.notMem_members hcaller),
      hrefused ((db.only naming userId).state vaultId) rfl (hnamed.only.notMem_members hcaller),
      setState_state hnamed, setState_state hnamed.only]
    exact ⟨rfl, rfl⟩

theorem Db.only_write_of_ne (hnamed : db.Named naming) {config : Config} {call : Call}
    (hcall : call.userId ≠ userId) (vaultId : String) :
    (db.setState vaultId (call.serve config (db.state vaultId)).2).only naming userId =
      db.only naming userId := by
  by_cases hvault : naming.vault vaultId = userId
  · obtain ⟨error, hrefused⟩ := serve_stranger config call vaultId
    rw [hrefused (db.state vaultId) rfl (hnamed.notMem_members (hvault.trans_ne hcall.symm)),
      setState_state hnamed]
  · exact only_setState_of_ne hnamed hvault _

end Calls

end ObSink.Server.Tables
