import ObSink.Server.Tokens

/-! # Deleted accounts

An account is deleted in three stages: its vaults, its row with all that refers
to it, then the blobs of the vaults one after the other. Once the request is
answered nothing of the account is left, and requests of the same account that
are still under way bring nothing back.
-/

namespace ObSink.Server.Tables

variable {config : RouteConfig} {userId : String} {gone : List String} {db : Db}

/-- No row is the account's. -/
structure Db.Forgets (userId : String) (db : Db) : Prop where
  users : ∀ row ∈ db.users, row.id ≠ userId
  devices : ∀ row ∈ db.devices, row.userId ≠ userId
  sessions : ∀ row ∈ db.sessions, row.userId ≠ userId
  invites : ∀ row ∈ db.invites, row.createdBy ≠ some userId
  vaults : ∀ row ∈ db.vaults, row.owner ≠ userId
  members : ∀ row ∈ db.members, row.userId ≠ userId
  holdings : ∀ row ∈ db.holdings, row.userId ≠ userId

/-- None of these vaults has a row or a member. -/
structure Db.Vacant (gone : List String) (db : Db) : Prop where
  vaults : ∀ row ∈ db.vaults, row.id ∉ gone
  members : ∀ row ∈ db.members, row.vaultId ∉ gone

/-- A new vault under one of these ids. -/
def Statement.Creates (gone : List String) : Statement → Prop
  | .createVault row _ => row.id ∈ gone
  | _ => False

/-- A reply that says of none of these vaults that it is there. -/
def Statement.Spares (gone : List String) : (statement : Statement) → statement.Reply → Prop
  | .role vaultId _, found => found.isSome → vaultId ∉ gone
  | .deleteVaultsOf _, vaultIds => ∀ vaultId ∈ vaultIds, vaultId ∉ gone
  | _, _ => True

/-! ## An account that is gone -/

namespace Db.Forgets

theorem hasUser (hforgets : db.Forgets userId) : db.hasUser userId = false :=
  List.any_eq_false.mpr fun row hrow => by simpa using hforgets.users row hrow

theorem ne_of_hasUser (hforgets : db.Forgets userId) {other : String}
    (hother : db.hasUser other = true) : other ≠ userId := by
  rintro rfl
  rw [hforgets.hasUser] at hother
  cases hother

/-- A change of rows that keep whose they are. -/
theorem updateDevice (hforgets : db.Forgets userId) (owner deviceId : String)
    {change : DeviceRow → DeviceRow} (hkeep : ∀ row, (change row).userId = row.userId) :
    (db.updateDevice owner deviceId change).Forgets userId :=
  { hforgets with
    devices := Select.forall_changed hforgets.devices fun row _ hrow => (hkeep row).trans_ne hrow }

theorem updateVault (hforgets : db.Forgets userId) (vaultId : String)
    {change : VaultRow → VaultRow} (hkeep : ∀ row, (change row).owner = row.owner) :
    (db.updateVault vaultId change).Forgets userId :=
  { hforgets with
    vaults := Select.forall_changed hforgets.vaults fun row _ hrow => (hkeep row).trans_ne hrow }

theorem updateHolding (hforgets : db.Forgets userId) (owner deviceId vaultId : String)
    {change : HoldingRow → HoldingRow} (hkeep : ∀ row, (change row).userId = row.userId) :
    (db.updateHolding owner deviceId vaultId change).Forgets userId :=
  { hforgets with
    holdings := Select.forall_changed hforgets.holdings fun row _ hrow =>
      (hkeep row).trans_ne hrow }

theorem call (hforgets : db.Forgets userId) (owner : String) (call : AccountCall) :
    (call.run owner db).2.Forgets userId := by
  unfold AccountCall.run
  split
  next =>
    exact { hforgets with
      users := Select.forall_changed hforgets.users fun _ _ hrow => hrow
      devices := Select.forall_changed hforgets.devices fun _ _ hrow => hrow }
  next => exact hforgets

theorem dropDevice (hforgets : db.Forgets userId) (owner deviceId : String) :
    (db.dropDevice owner deviceId).Forgets userId :=
  { hforgets with
    devices := fun row hrow => hforgets.devices row (List.mem_of_mem_filter hrow)
    sessions := fun row hrow => hforgets.sessions row (List.mem_of_mem_filter hrow)
    holdings := fun row hrow => hforgets.holdings row (List.mem_of_mem_filter hrow) }

theorem dropVaults (hforgets : db.Forgets userId) (test : VaultRow → Bool) :
    (db.dropVaults test).Forgets userId :=
  { hforgets with
    vaults := fun row hrow => hforgets.vaults row (List.mem_of_mem_filter hrow)
    members := fun row hrow => hforgets.members row (List.mem_of_mem_filter hrow)
    holdings := fun row hrow => hforgets.holdings row (List.mem_of_mem_filter hrow) }

theorem dropUser (hforgets : db.Forgets userId) (id : String) :
    (db.dropUser id).Forgets userId := by
  have hvaults := hforgets.dropVaults fun row => row.owner = id
  exact
    { users := fun row hrow => hforgets.users row (List.mem_of_mem_filter hrow)
      devices := fun row hrow => hforgets.devices row (List.mem_of_mem_filter hrow)
      sessions := fun row hrow => hforgets.sessions row (List.mem_of_mem_filter hrow)
      invites := fun row hrow => hforgets.invites row (List.mem_of_mem_filter hrow)
      vaults := hvaults.vaults
      members := fun row hrow => hvaults.members row (List.mem_of_mem_filter hrow)
      holdings := fun row hrow => hvaults.holdings row (List.mem_of_mem_filter hrow) }

/-- A session needs the row of its account. -/
theorem signIn (hforgets : db.Forgets userId) {owner sessionId : String} {device : DeviceIdentity}
    {tokenHash : Bytes} {now : Nat} {after : Db}
    (hsign : db.signIn owner device sessionId tokenHash now = some after) :
    after.Forgets userId := by
  simp only [Db.signIn] at hsign
  split at hsign
  next hfree =>
    obtain rfl := Option.some.inj hsign
    have howner : owner ≠ userId := hforgets.ne_of_hasUser (Bool.and_eq_true _ _ ▸ hfree).1
    have hupsert : (db.upsertDevice owner device now).Forgets userId := by
      unfold Db.upsertDevice
      split
      next => exact hforgets.updateDevice owner device.id fun _ => rfl
      next =>
        exact { hforgets with
          devices := List.forall_mem_append.mpr
            ⟨hforgets.devices, List.forall_mem_singleton.mpr howner⟩ }
    exact { hupsert with
      sessions := List.forall_mem_append.mpr
        ⟨fun row hrow => hupsert.sessions row (List.mem_of_mem_filter hrow),
          List.forall_mem_singleton.mpr howner⟩ }
  next => cases hsign

theorem insertInvite (hforgets : db.Forgets userId) (code createdBy : String) (now expires : Nat) :
    (db.insertInvite code createdBy now expires).2.Forgets userId := by
  unfold Db.insertInvite
  split
  next => exact hforgets
  next =>
    split
    next hcreator =>
      have hne : some createdBy ≠ some userId :=
        fun hsame => hforgets.ne_of_hasUser hcreator (Option.some.inj hsame)
      exact { hforgets with
        invites := List.forall_mem_append.mpr
          ⟨hforgets.invites, List.forall_mem_singleton.mpr hne⟩ }
    next => exact hforgets

theorem createVault (hforgets : db.Forgets userId) (maxVaults : Nat) (row : VaultRow)
    (wrappedKey : Bytes) : (db.createVault maxVaults row wrappedKey).2.Forgets userId := by
  unfold Db.createVault
  split
  next => exact hforgets
  next user hfound =>
    have hid : user.id = row.owner := by simpa using List.find?_some hfound
    have howner : row.owner ≠ userId := hid ▸ hforgets.users user (List.mem_of_find?_eq_some hfound)
    repeat' split
    all_goals first | exact hforgets | skip
    next =>
      exact { hforgets with
        vaults := List.forall_mem_append.mpr
          ⟨hforgets.vaults, List.forall_mem_singleton.mpr howner⟩
        members := List.forall_mem_append.mpr
          ⟨hforgets.members, List.forall_mem_singleton.mpr howner⟩ }

/-- A vault is held by a device that has a row. -/
theorem attach (hforgets : db.Forgets userId) {owner deviceId vaultId : String} {now : Nat}
    {revision : Option Nat} {after : Db}
    (hattach : db.attach owner deviceId vaultId now revision = some after) :
    after.Forgets userId := by
  simp only [Db.attach] at hattach
  split at hattach
  next =>
    cases revision with
    | none =>
        obtain rfl := Option.some.inj hattach
        exact hforgets.updateDevice owner deviceId fun _ => rfl
    | some revision =>
        obtain rfl := Option.some.inj hattach
        refine updateDevice ?_ owner deviceId fun _ => rfl
        exact hforgets.updateHolding owner deviceId vaultId fun _ => rfl
  next =>
    split at hattach
    next hthere =>
      obtain rfl := Option.some.inj hattach
      obtain ⟨device, hdevice, hof⟩ := List.any_eq_true.mp (Bool.and_eq_true _ _ ▸ hthere).1
      simp only [DeviceRow.isOf, Bool.and_eq_true, decide_eq_true_eq] at hof
      have howner : owner ≠ userId := hof.1 ▸ hforgets.devices device hdevice
      refine updateDevice ?_ owner deviceId fun _ => rfl
      exact { hforgets with
        holdings := List.forall_mem_append.mpr
          ⟨hforgets.holdings, List.forall_mem_singleton.mpr howner⟩ }
    next => cases hattach

/-- No statement brings a row of the account back. -/
theorem run (hforgets : db.Forgets userId) (statement : Statement) :
    (statement.run config db).2.Forgets userId := by
  cases statement with
  | signIn owner device sessionId tokenHash now =>
      simp only [Statement.run]
      split
      next after hsign => exact hforgets.signIn hsign
      next => exact hforgets
  | account owner call => exact hforgets.call owner call
  | deleteDevice owner deviceId => exact hforgets.dropDevice owner deviceId
  | renameDevice owner deviceId name => exact hforgets.updateDevice owner deviceId fun _ => rfl
  | insertInvite code createdBy now expires =>
      exact hforgets.insertInvite code createdBy now expires
  | createVault row wrappedKey => exact hforgets.createVault _ row wrappedKey
  | renameVault id name => exact hforgets.updateVault id fun _ => rfl
  | deleteVault id owner => exact hforgets.dropVaults _
  | deleteVaultsOf owner => exact hforgets.dropVaults _
  | deleteUser id => exact hforgets.dropUser id
  | attach owner deviceId vaultId now revision =>
      simp only [Statement.run]
      split
      next after hattach => exact hforgets.attach hattach
      next => exact hforgets
  | detach owner deviceId vaultId =>
      exact { hforgets with
        holdings := fun row hrow => hforgets.holdings row (List.mem_of_mem_filter hrow) }
  | write vaultId call =>
      exact { hforgets with
        vaults := Select.forall_changed hforgets.vaults fun _ _ hrow => hrow }
  | removeBlobs vaultId => exact { hforgets with }
  | _ => exact hforgets

/-- Only a sign-up brings an account. -/
theorem act (hforgets : db.Forgets userId) {what : Outside}
    (hother : ∀ row, what = .signUp row → row.id ≠ userId) : (what.act db).Forgets userId := by
  cases what with
  | signUp row =>
      exact { hforgets with
        users := List.forall_mem_append.mpr
          ⟨hforgets.users, List.forall_mem_singleton.mpr (hother row rfl)⟩ }
  | redeem code now =>
      exact { hforgets with
        invites := Select.forall_changed hforgets.invites fun _ _ hrow => hrow }
  | expireSessions now =>
      exact { hforgets with
        sessions := fun row hrow => hforgets.sessions row (List.mem_of_mem_filter hrow) }
  | expireApprovals now =>
      exact { hforgets with
        devices := Select.forall_changed hforgets.devices fun _ _ hrow => hrow }
  | prune vaultId tier pathName entry => exact { hforgets with }
  | sweep vaultId =>
      simp only [Outside.act]
      split
      next => exact hforgets
      next => exact { hforgets with }

end Db.Forgets

/-- The rows that refer to an account go with it. -/
theorem Db.forgets_dropUser (db : Db) (userId : String) : (db.dropUser userId).Forgets userId where
  users row hrow := by simpa using List.of_mem_filter hrow
  devices row hrow := by simpa using List.of_mem_filter hrow
  sessions row hrow := by simpa using List.of_mem_filter hrow
  invites row hrow := by simpa using List.of_mem_filter hrow
  vaults row hrow := by simpa using List.of_mem_filter hrow
  members row hrow := by simpa using List.of_mem_filter hrow
  holdings row hrow := by simpa using List.of_mem_filter hrow

/-! ## Vaults that are gone -/

/-- A sign-in has nothing to do with vaults. -/
theorem Db.signIn_vaults {owner sessionId : String} {device : DeviceIdentity} {tokenHash : Bytes}
    {now : Nat} {after : Db} (hsign : db.signIn owner device sessionId tokenHash now = some after) :
    after.vaults = db.vaults ∧ after.members = db.members ∧ after.blobs = db.blobs := by
  simp only [Db.signIn] at hsign
  split at hsign
  next =>
    obtain rfl := Option.some.inj hsign
    simp only [Db.replaceSession, Db.upsertDevice]
    split <;> exact ⟨rfl, rfl, rfl⟩
  next => cases hsign

theorem Db.attach_vaults {owner deviceId vaultId : String} {now : Nat} {revision : Option Nat}
    {after : Db} (hattach : db.attach owner deviceId vaultId now revision = some after) :
    after.vaults = db.vaults ∧ after.members = db.members ∧ after.blobs = db.blobs := by
  simp only [Db.attach] at hattach
  split at hattach
  next => cases revision <;> exact Option.some.inj hattach ▸ ⟨rfl, rfl, rfl⟩
  next =>
    split at hattach
    next => exact Option.some.inj hattach ▸ ⟨rfl, rfl, rfl⟩
    next => cases hattach

namespace Db.Vacant

/-- Fewer vaults and members. -/
theorem mono (hvacant : db.Vacant gone) {after : Db} (hvaults : after.vaults ⊆ db.vaults)
    (hmembers : after.members ⊆ db.members) : after.Vacant gone where
  vaults row hrow := hvacant.vaults row (hvaults hrow)
  members row hrow := hvacant.members row (hmembers hrow)

theorem updateVault (hvacant : db.Vacant gone) (vaultId : String)
    {change : VaultRow → VaultRow} (hkeep : ∀ row, (change row).id = row.id) :
    (db.updateVault vaultId change).Vacant gone where
  vaults := Select.forall_changed hvacant.vaults fun row _ hrow => (hkeep row).symm ▸ hrow
  members := hvacant.members

theorem dropVaults (hvacant : db.Vacant gone) (test : VaultRow → Bool) :
    (db.dropVaults test).Vacant gone :=
  hvacant.mono (List.filter_subset_self _) (List.filter_subset_self _)

theorem dropUser (hvacant : db.Vacant gone) (id : String) : (db.dropUser id).Vacant gone :=
  (hvacant.dropVaults fun row => row.owner = id).mono (List.Subset.refl _)
    (List.filter_subset_self _)

theorem createVault (hvacant : db.Vacant gone) {row : VaultRow} (hid : row.id ∉ gone)
    (maxVaults : Nat) (wrappedKey : Bytes) :
    (db.createVault maxVaults row wrappedKey).2.Vacant gone := by
  unfold Db.createVault
  repeat' split
  all_goals first | exact hvacant | skip
  next =>
    exact
      { vaults := List.forall_mem_append.mpr
          ⟨hvacant.vaults, List.forall_mem_singleton.mpr hid⟩
        members := List.forall_mem_append.mpr
          ⟨hvacant.members, List.forall_mem_singleton.mpr hid⟩ }

theorem run (hvacant : db.Vacant gone) {statement : Statement}
    (hcreates : ¬statement.Creates gone) : (statement.run config db).2.Vacant gone := by
  cases statement with
  | signIn owner device sessionId tokenHash now =>
      simp only [Statement.run]
      split
      next after hsign =>
        obtain ⟨hvaults, hmembers, -⟩ := signIn_vaults hsign
        exact hvacant.mono (hvaults ▸ List.Subset.refl _) (hmembers ▸ List.Subset.refl _)
      next => exact hvacant
  | account owner call =>
      simp only [Statement.run, AccountCall.run]
      split
      next => exact hvacant.mono (List.Subset.refl _) (List.Subset.refl _)
      next => exact hvacant
  | insertInvite code createdBy now expires =>
      simp only [Statement.run, Db.insertInvite]
      repeat' split
      all_goals exact hvacant.mono (List.Subset.refl _) (List.Subset.refl _)
  | createVault row wrappedKey => exact hvacant.createVault hcreates _ wrappedKey
  | renameVault id name => exact hvacant.updateVault id fun _ => rfl
  | deleteVault id owner => exact hvacant.dropVaults _
  | deleteVaultsOf owner => exact hvacant.dropVaults _
  | deleteUser id => exact hvacant.dropUser id
  | attach owner deviceId vaultId now revision =>
      simp only [Statement.run]
      split
      next after hattach =>
        obtain ⟨hvaults, hmembers, -⟩ := attach_vaults hattach
        exact hvacant.mono (hvaults ▸ List.Subset.refl _) (hmembers ▸ List.Subset.refl _)
      next => exact hvacant
  | write vaultId call =>
      exact
        { vaults := Select.forall_changed hvacant.vaults fun _ _ hrow => hrow
          members := hvacant.members }
  | _ => exact hvacant.mono (List.Subset.refl _) (List.Subset.refl _)

/-- Nor does anything that happens besides. -/
theorem act (hvacant : db.Vacant gone) (what : Outside) : (what.act db).Vacant gone := by
  cases what with
  | sweep vaultId =>
      simp only [Outside.act]
      split <;> exact hvacant.mono (List.Subset.refl _) (List.Subset.refl _)
  | _ => exact hvacant.mono (List.Subset.refl _) (List.Subset.refl _)

/-- What a statement replies says of none of them that it is there. -/
theorem spares (hvacant : db.Vacant gone) (statement : Statement) :
    statement.Spares gone (statement.run config db).1 := by
  cases statement with
  | role vaultId owner =>
      intro hsome hid
      obtain ⟨found, hfound⟩ := Option.isSome_iff_exists.mp hsome
      obtain ⟨member, hmember, -⟩ := Option.map_eq_some_iff.mp hfound
      have hof := List.find?_some hmember
      simp only [MemberRow.isOf, Bool.and_eq_true, decide_eq_true_eq] at hof
      exact hvacant.members member (List.mem_of_find?_eq_some hmember) (hof.1.symm ▸ hid)
  | deleteVaultsOf owner =>
      intro vaultId hmem
      obtain ⟨row, hrow, rfl⟩ := List.mem_map.mp hmem
      exact hvacant.vaults row (List.mem_of_mem_filter hrow)
  | _ => trivial

/-- A write to one of them is refused. -/
theorem state_stranger (hvacant : db.Vacant gone) {vaultId : String} (hid : vaultId ∈ gone)
    (caller : String) : caller ∉ (db.state vaultId).vault.members := by
  intro hmem
  obtain ⟨row, hrow, rfl⟩ := List.mem_map.mp hmem
  obtain ⟨hrow, hof⟩ := List.mem_filter.mp hrow
  simp only [decide_eq_true_eq] at hof
  exact hvacant.members row hrow (hof.symm ▸ hid)

/-- Blobs that have been removed stay so. -/
theorem run_blobs (hvacant : db.Vacant gone) {vaultId : String} (hid : vaultId ∈ gone)
    (hempty : db.blobs vaultId = .empty) (statement : Statement) :
    (statement.run config db).2.blobs vaultId = .empty := by
  cases statement with
  | signIn owner device sessionId tokenHash now =>
      simp only [Statement.run]
      split
      next after hsign => rw [(signIn_vaults hsign).2.2, hempty]
      next => exact hempty
  | account owner call =>
      simp only [Statement.run, AccountCall.run]
      split <;> exact hempty
  | insertInvite code createdBy now expires =>
      simp only [Statement.run, Db.insertInvite]
      repeat' split
      all_goals exact hempty
  | createVault row wrappedKey =>
      simp only [Statement.run, Db.createVault]
      repeat' split
      all_goals exact hempty
  | attach owner deviceId vaultId now revision =>
      simp only [Statement.run]
      split
      next after hattach => rw [(attach_vaults hattach).2.2, hempty]
      next => exact hempty
  | removeBlobs other =>
      simp only [Statement.run, Db.setBlobs, Function.update_apply]
      split
      next => rfl
      next => exact hempty
  | write other call =>
      simp only [Statement.run, Db.setState, Db.setBlobs, Db.updateVault, Function.update_apply]
      split
      next hsame =>
        obtain ⟨error, hrefused⟩ := serve_stranger config.toConfig call vaultId
        rw [← hsame, hrefused _ rfl (hvacant.state_stranger hid _)]
        exact hempty
      next => exact hempty
  | _ => exact hempty

end Db.Vacant

/-- Nothing that happens besides fills the blobs of a vault. -/
theorem Outside.act_blobs {vaultId : String} (hempty : db.blobs vaultId = .empty)
    (what : Outside) : (what.act db).blobs vaultId = .empty := by
  cases what with
  | prune other tier pathName entry =>
      simp only [Outside.act, Db.setBlobs, Function.update_apply]
      split
      next hsame =>
        have hdir : (∅ : HistoryDir).erase entry = ∅ := Std.ExtTreeMap.erase_empty
        have hname : Function.update (BlobStore.empty.history tier) pathName ∅ =
            BlobStore.empty.history tier := Function.update_eq_self _ _
        rw [← hsame, hempty]
        change BlobStore.setHistory .empty tier pathName ((∅ : HistoryDir).erase entry) = .empty
        rw [hdir, BlobStore.setHistory, hname, Function.update_eq_self]
      next => exact hempty
  | sweep other =>
      simp only [Outside.act]
      split
      next => exact hempty
      next =>
        simp only [Db.setBlobs, Function.update_apply]
        split
        next => rfl
        next => exact hempty
  | _ => exact hempty

/-! ## The request -/

/-- What is left to do when the rows are gone. -/
def removing (vaultIds : List String) : Handler Response := do
  removeAllBlobs vaultIds
  return .ok .noContent

theorem deleteAccount_eq (principal : Principal) :
    deleteAccount principal = .act (.deleteVaultsOf principal.userId) fun vaultIds =>
      .act (.deleteUser principal.userId) fun _ => removing vaultIds := rfl

/-- How far the deletion of an account with these vaults has come. -/
inductive Deleting (userId : String) (gone : List String) : Handler Response → Db → Prop
  | vaults {db : Db} (hvacant : db.Vacant gone) :
      Deleting userId gone (.act (.deleteUser userId) fun _ => removing gone) db
  | user {db : Db} (done rest : List String) (hgone : gone = done ++ rest)
      (hvacant : db.Vacant gone) (hforgets : db.Forgets userId)
      (hremoved : ∀ vaultId ∈ done, db.blobs vaultId = .empty) :
      Deleting userId gone (removing rest) db

namespace Deleting

theorem vacant {prog : Handler Response} (hdeleting : Deleting userId gone prog db) :
    db.Vacant gone := by
  cases hdeleting with
  | vaults hvacant => exact hvacant
  | user done rest hgone hvacant hforgets hremoved => exact hvacant

/-- Another request's statement. -/
theorem others {prog : Handler Response} (hdeleting : Deleting userId gone prog db)
    {statement : Statement} (hcreates : ¬statement.Creates gone) :
    Deleting userId gone prog (statement.run config db).2 := by
  cases hdeleting with
  | vaults hvacant => exact .vaults (hvacant.run hcreates)
  | user done rest hgone hvacant hforgets hremoved =>
      refine .user done rest hgone (hvacant.run hcreates) (hforgets.run statement) ?_
      intro vaultId hdone
      have hid : vaultId ∈ gone := hgone ▸ List.mem_append_left rest hdone
      exact hvacant.run_blobs hid (hremoved vaultId hdone) statement

theorem happens {prog : Handler Response} (hdeleting : Deleting userId gone prog db)
    {what : Outside} (hother : ∀ row, what = .signUp row → row.id ≠ userId) :
    Deleting userId gone prog (what.act db) := by
  cases hdeleting with
  | vaults hvacant => exact .vaults (hvacant.act what)
  | user done rest hgone hvacant hforgets hremoved =>
      exact .user done rest hgone (hvacant.act what) (hforgets.act hother) fun vaultId hdone =>
        what.act_blobs (hremoved vaultId hdone)

/-- Its own next statement. -/
theorem goes {statement : Statement} {next : statement.Reply → Handler Response}
    (hdeleting : Deleting userId gone (.act statement next) db) :
    Deleting userId gone (next (statement.run config db).1) (statement.run config db).2 := by
  generalize hprog : Prog.act statement next = prog at hdeleting
  cases hdeleting with
  | vaults hvacant =>
      obtain ⟨rfl, hnext⟩ := Prog.act.inj hprog
      obtain rfl := eq_of_heq hnext
      exact .user [] gone rfl (hvacant.dropUser userId) (db.forgets_dropUser userId)
        fun _ hnone => absurd hnone List.not_mem_nil
  | user done rest hgone hvacant hforgets hremoved =>
      cases rest with
      | nil => cases hprog
      | cons vaultId rest =>
          obtain ⟨rfl, hnext⟩ := Prog.act.inj hprog
          obtain rfl := eq_of_heq hnext
          refine .user (done ++ [vaultId]) rest (by simp [hgone]) (hvacant.run id)
            (hforgets.run _) ?_
          intro other hother
          rcases List.mem_append.mp hother with hdone | hlast
          · have hid : other ∈ gone := hgone ▸ List.mem_append_left _ hdone
            exact hvacant.run_blobs hid (hremoved other hdone) _
          · obtain rfl := List.mem_singleton.mp hlast
            exact Function.update_self _ _ _

/-- When it is answered, everything is gone. -/
theorem answered {response : Response} (hdeleting : Deleting userId gone (.pure response) db) :
    response = .ok .noContent ∧ db.Vacant gone ∧ db.Forgets userId ∧
      ∀ vaultId ∈ gone, db.blobs vaultId = .empty := by
  generalize hprog : Prog.pure response = prog at hdeleting
  cases hdeleting with
  | vaults hvacant => cases hprog
  | user done rest hgone hvacant hforgets hremoved =>
      cases rest with
      | nil =>
          obtain rfl := Prog.pure.inj hprog
          exact ⟨rfl, hvacant, hforgets, fun vaultId hid =>
            hremoved vaultId (by simpa [hgone] using hid)⟩
      | cons vaultId rest => cases hprog

end Deleting

/-! ## The server meanwhile -/

/-- Names by which every vault but these is the account's. -/
def Naming.sparing (userId : String) (gone : List String) : Naming where
  token _ := userId
  session _ := userId
  vault vaultId := if vaultId ∈ gone then userId.push '!' else userId
  invite _ := some userId

theorem Naming.sparing_vault {vaultId : String} :
    (sparing userId gone).vault vaultId = userId ↔ vaultId ∉ gone := by
  have hother : userId.push '!' ≠ userId := fun hsame => by
    simpa using congrArg String.length hsame
  by_cases hid : vaultId ∈ gone
  · simp [sparing, hid, hother]
  · simp [sparing, hid]

theorem Statement.For.not_creates {statement : Statement}
    (hfor : statement.For (.sparing userId gone) userId) : ¬statement.Creates gone := by
  cases statement with
  | createVault row wrappedKey => exact Naming.sparing_vault.mp hfor.2
  | _ => exact id

theorem Statement.Spares.fitting {statement : Statement} {reply : statement.Reply}
    (hspares : statement.Spares gone reply) (hfor : statement.For (.sparing userId gone) userId)
    (hroutine : statement.Routine) : statement.Fitting (.sparing userId gone) reply := by
  cases statement with
  | session hash now => exact hroutine.elim
  | role vaultId owner =>
      obtain rfl : owner = userId := hfor
      exact fun hsome => Naming.sparing_vault.mpr (hspares hsome)
  | deleteVaultsOf owner =>
      obtain rfl : owner = userId := hfor
      exact fun vaultId hmem => Naming.sparing_vault.mpr (hspares vaultId hmem)
  | _ => trivial

theorem dispatch_creates {principal : Principal} {now : Nat} {asked : Route}
    (hcreates : ∀ body minted, asked = .createVault body minted →
      ∀ vaultId maxFileSize, body.check config.toStorageConfig minted = .ok (vaultId, maxFileSize) →
        vaultId ∉ gone) :
    Prog.Abides (fun statement => ¬statement.Creates gone) (Statement.Spares gone) (fun _ => True)
      (dispatch config principal now asked) := by
  have hroute : asked.Of (.sparing principal.userId gone) config principal.userId := by
    cases asked with
    | createInvite codes => exact fun _ => rfl
    | createVault body minted =>
        exact fun vaultId maxFileSize hcheck =>
          Naming.sparing_vault.mpr (hcreates body minted rfl vaultId maxFileSize hcheck)
    | _ => trivial
  have hkeeps : KeepsTo (.sparing principal.userId gone) principal.userId
      (dispatch config principal now asked) := keeps_dispatch rfl hroute
  unfold KeepsTo Keeps at hkeeps
  refine (hkeeps.relax ?_).weaken ?_
  · rintro statement ⟨hfor, hroutine⟩ reply hspares
    exact hspares.fitting hfor hroutine
  · rintro statement ⟨hfor, -⟩
    exact hfor.not_creates

/-- A request for a new vault under another id, or for anything else. -/
theorem handle_creates {incoming : Incoming}
    (hcreates : ∀ authorization resolvedAt now body minted,
      incoming = .route authorization resolvedAt now (.createVault body minted) →
        ∀ vaultId maxFileSize,
          body.check config.toStorageConfig minted = .ok (vaultId, maxFileSize) →
          vaultId ∉ gone) :
    Prog.Abides (fun statement => ¬statement.Creates gone) (Statement.Spares gone) (fun _ => True)
      (incoming.handle config) := by
  cases incoming with
  | signIn owner email device sessionId token now =>
      refine ⟨id, fun signed _ => ?_⟩
      cases signed with
      | false => trivial
      | true => trivial
  | route authorization resolvedAt now asked =>
      simp only [Incoming.handle, resolve]
      cases bearer authorization with
      | none => trivial
      | some token =>
          refine ⟨id, fun found _ => ?_⟩
          cases found with
          | none => trivial
          | some principal =>
              refine dispatch_creates fun body minted hasked => ?_
              exact hcreates authorization resolvedAt now body minted (hasked ▸ rfl)

theorem removing_creates (gone vaultIds : List String) :
    Prog.Abides (fun statement => ¬statement.Creates gone) (Statement.Spares gone) (fun _ => True)
      (removing vaultIds) := by
  induction vaultIds with
  | nil => trivial
  | cons vaultId rest ih => exact ⟨id, fun _ _ => ih⟩

/-- The ids of the vaults an account owns. -/
def Db.owned (db : Db) (owner : String) : List String :=
  (db.vaults.filter (·.owner = owner)).map VaultRow.id

theorem Db.vacant_dropVaults (hdistinct : (db.vaults.map VaultRow.id).Nodup) (owner : String) :
    (db.dropVaults fun row => row.owner = owner).Vacant (db.owned owner) where
  vaults row hrow hid := by
    obtain ⟨hrow, hother⟩ := List.mem_filter.mp hrow
    obtain ⟨found, hfound, hsame⟩ := List.mem_map.mp hid
    obtain ⟨hfound, howner⟩ := List.mem_filter.mp hfound
    obtain rfl := List.inj_on_of_nodup_map hdistinct hfound hrow hsame
    simp_all
  members row hrow := by
    have hother := List.of_mem_filter hrow
    simpa [Db.owned] using hother

/-- Once the deletion of an account is answered, in whatever order other requests
and outside events ran their statements meanwhile, no row of the account is left
and none of its vaults has a row, a member or a blob. -/
theorem deleted_account_leaves_nothing (config : RouteConfig) (principal : Principal)
    {state : Apart.State Statement Statement.Reply Db Response} {deleting : Nat}
    (hstate : state.progs deleting = some (deleteAccount principal))
    (hdistinct : (state.world.vaults.map VaultRow.id).Nodup)
    (hprogs : state.Abides
      (fun _ statement => ¬statement.Creates (state.world.owned principal.userId))
      (Statement.Spares (state.world.owned principal.userId)))
    {events : List (Apart.Event Incoming Outside)}
    (hcreates : ∀ id authorization resolvedAt now body minted,
      .arrive id (.route authorization resolvedAt now (.createVault body minted)) ∈ events →
        ∀ vaultId maxFileSize,
          body.check config.toStorageConfig minted = .ok (vaultId, maxFileSize) →
          vaultId ∉ state.world.owned principal.userId)
    (hsignUps : ∀ row, .outside (.signUp row) ∈ events → row.id ≠ principal.userId)
    {response : Response}
    (hanswered : (Apart.run (serving config) (.step deleting :: events) state).progs deleting =
      some (.pure response)) :
    let after := (Apart.run (serving config) (.step deleting :: events) state).world
    response = .ok .noContent ∧ after.Forgets principal.userId ∧
      ∀ vaultId ∈ state.world.owned principal.userId,
        after.hasVault vaultId = false ∧ after.blobs vaultId = .empty := by
  intro after
  let gone := state.world.owned principal.userId
  -- the vaults' rows go
  have hstep : state.next (serving config) (.step deleting) =
      ⟨state.world.dropVaults fun row => row.owner = principal.userId,
        Function.update state.progs deleting
          (some (.act (.deleteUser principal.userId) fun _ => removing gone))⟩ := by
    rw [deleteAccount_eq] at hstate
    exact Apart.State.next_step (serving config) hstate
  have hdeleting : Deleting principal.userId gone
      (.act (.deleteUser principal.userId) fun _ => removing gone)
      (state.world.dropVaults fun row => row.owner = principal.userId) :=
    .vaults (Db.vacant_dropVaults hdistinct principal.userId)
  have hafter : (state.next (serving config) (.step deleting)).Abides
      (fun _ statement => ¬statement.Creates gone) (Statement.Spares gone) := by
    rw [hstep]
    exact hprogs.update (show Prog.Abides _ _ _ _ from ⟨id, fun _ _ => removing_creates _ gone⟩)
  have harrives : Apart.Arrives (serving config) (fun _ statement => ¬statement.Creates gone)
      (Statement.Spares gone) events := by
    intro id incoming hmem
    refine handle_creates fun authorization resolvedAt now body minted hincoming => ?_
    exact hcreates id authorization resolvedAt now body minted (hincoming ▸ hmem)
  -- and the rest as all requests go on
  obtain ⟨prog, hprog, hcome⟩ := Apart.run_with (Deleting principal.userId gone)
    (fun what => ∀ row, what = .signUp row → row.id ≠ principal.userId)
    (fun id statement prog world hallowed hdeleting =>
      ⟨hdeleting.others hallowed, hdeleting.vacant.spares statement⟩)
    (fun what prog world hheard hdeleting => hdeleting.happens hheard)
    (fun statement next world _ hdeleting => hdeleting.goes)
    (state.next (serving config) (.step deleting)) hafter
    ⟨_, by rw [hstep]; exact Function.update_self _ _ _, by rw [hstep]; exact hdeleting⟩
    harrives fun what hmem row hwhat => hsignUps row (hwhat ▸ hmem)
  obtain rfl : prog = .pure response := Option.some.inj (hprog.symm.trans hanswered)
  obtain ⟨hresponse, hvacant, hforgets, hremoved⟩ := hcome.answered
  refine ⟨hresponse, hforgets, fun vaultId hid => ⟨?_, hremoved vaultId hid⟩⟩
  exact List.any_eq_false.mpr fun row hrow hsame =>
    hvacant.vaults row hrow (by simpa [← of_decide_eq_true hsame] using hid)

/-! ## An account deleted amid another request of its own -/

def ann : Principal := ⟨"ann", "ses_ann", "mac"⟩

/-- `ann` has a note in her vault. -/
def annsDb : Db :=
  { sampleDb with blobs := fun _ => BlobStore.empty.setLive "note" (some [1]) }

/-- She is about to delete her account, and her `mac` to attach the vault. -/
def closing : Apart.State Statement Statement.Reply Db Response where
  world := annsDb
  progs
    | 0 => some (deleteAccount ann)
    | 1 => some (.act (.attach "ann" "mac" emptyVault.id 1 none) fun attached =>
        .pure (if attached then .ok .noContent else .error violated))
    | _ => none

theorem closing_abides : closing.Abides
    (fun _ statement => ¬statement.Creates (closing.world.owned "ann"))
    (Statement.Spares (closing.world.owned "ann")) := by
  intro id prog hprog
  rcases id with _ | _ | id
  · obtain rfl := Option.some.inj hprog
    exact ⟨fun hcreates => hcreates, fun _ _ => ⟨fun hcreates => hcreates, fun _ _ =>
      removing_creates _ _⟩⟩
  · obtain rfl := Option.some.inj hprog
    exact ⟨fun hcreates => hcreates, fun _ _ => trivial⟩
  · cases hprog

/-- The attachment is refused and nothing of hers comes back. -/
theorem ann_leaves_nothing_in_sample :
    let final := Apart.run (serving sampleRoutes) (.step 0 :: [.step 0, .step 1, .step 0]) closing
    final.progs 1 = some (.pure (.error violated)) ∧
      (.ok .noContent : Response) = .ok .noContent ∧ final.world.Forgets "ann" ∧
        ∀ vaultId ∈ closing.world.owned "ann",
          final.world.hasVault vaultId = false ∧ final.world.blobs vaultId = .empty := by
  refine ⟨rfl, ?_⟩
  refine deleted_account_leaves_nothing sampleRoutes ann rfl (by decide) closing_abides ?_ ?_ rfl
  · simp
  · simp

end ObSink.Server.Tables
