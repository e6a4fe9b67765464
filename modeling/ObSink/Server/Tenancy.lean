import ObSink.Server.Parts
import ObSink.Server.Routes

/-! # Accounts are apart

Any number of requests of any number of accounts run at the same time, statement
by statement. Each account's requests are answered as if no other account
existed, and leave of its rows and blobs what they would leave then.
-/

namespace ObSink.Server.Tables

variable {config : RouteConfig} {naming : Naming} {userId other : String} {db : Db}

/-! ## Statements -/

/-- A statement on the account's part. -/
theorem Statement.run_only (hnamed : db.Named naming) {statement : Statement}
    (hfor : statement.For naming userId) :
    statement.run config (db.only naming userId) =
      ((statement.run config db).1, (statement.run config db).2.only naming userId) := by
  cases statement with
  | session tokenHash now =>
      simp only [Statement.run, Db.only_sessions hnamed hfor]
  | signIn id device sessionId tokenHash now =>
      obtain ⟨rfl, hid, htoken⟩ := hfor
      simp only [Statement.run, Db.only_signIn hnamed device hid htoken now]
      cases db.signIn id device sessionId tokenHash now with
      | none => rfl
      | some after => rfl
  | user id =>
      obtain rfl : id = userId := hfor
      simp only [Statement.run, Db.only_find_user]
  | account id call =>
      obtain rfl : id = userId := hfor
      exact Db.only_call call
  | devices id =>
      obtain rfl : id = userId := hfor
      have hdevices : (db.only naming id).devices.filter (·.userId = id) =
          db.devices.filter (·.userId = id) := Db.only_filter fun row hrow => by simpa using hrow
      have hholdings : ∀ deviceId, (db.only naming id).holdings.filter
          (fun row => row.userId = id && row.deviceId = deviceId) =
            db.holdings.filter fun row => row.userId = id && row.deviceId = deviceId :=
        fun deviceId => Db.only_filter fun row hrow => by
          simp only [Bool.and_eq_true, decide_eq_true_eq] at hrow
          exact hrow.1
      simp only [Statement.run, hdevices, hholdings]
  | deleteDevice id deviceId =>
      obtain rfl : id = userId := hfor
      simp only [Statement.run, Db.only_hasDevice, Db.only_dropDevice]
  | renameDevice id deviceId name =>
      obtain rfl : id = userId := hfor
      simp only [Statement.run, Db.only_hasDevice]
      rw [Db.only_updateDevice]
      exact fun row => rfl
  | insertInvite code createdBy now expires =>
      obtain ⟨rfl, hcode⟩ := hfor
      exact Db.only_insertInvite hnamed hcode now expires
  | invites createdBy =>
      obtain rfl : createdBy = userId := hfor
      have hinvites : (db.only naming createdBy).invites.filter (·.createdBy = some createdBy) =
          db.invites.filter (·.createdBy = some createdBy) :=
        Select.filter_filter_of_imp fun row _ hrow => hrow
      simp only [Statement.run, hinvites]
  | usage owner =>
      obtain rfl : owner = userId := hfor
      have hvaults : (db.only naming owner).vaults.filter (·.owner = owner) =
          db.vaults.filter (·.owner = owner) := Db.only_filter fun row hrow => by simpa using hrow
      simp only [Statement.run, hvaults]
  | role vaultId id =>
      obtain rfl : id = userId := hfor
      simp only [Statement.run, ← List.head?_filter, Db.only_members]
  | vaultsOf id =>
      obtain rfl : id = userId := hfor
      simp only [Statement.run, Db.only_vaultsOf hnamed]
  | holdersOf id =>
      obtain rfl : id = userId := hfor
      simp only [Statement.run, Db.only_holdersOf hnamed]
  | createVault row wrappedKey =>
      exact Db.only_createVault hnamed hfor.1 hfor.2 _ wrappedKey
  | renameVault vaultId name =>
      simp only [Statement.run]
      rw [Db.only_updateVault]
      exact fun row => rfl
  | deleteVault vaultId owner =>
      obtain rfl : owner = userId := hfor
      have hgone : ∀ row : VaultRow, (row.id = vaultId && row.owner = owner) = true →
          row.owner = owner := by
        intro row hrow
        simp only [Bool.and_eq_true, decide_eq_true_eq] at hrow
        exact hrow.2
      have hany :
        (db.only naming owner).vaults.any (fun row => row.id = vaultId && row.owner = owner) =
          db.vaults.any fun row => row.id = vaultId && row.owner = owner :=
        Select.any_filter_of_imp fun row _ hrow => by simpa using hgone row hrow
      simp only [Statement.run, hany, Db.only_dropVaults hgone]
  | deleteVaultsOf owner =>
      obtain rfl : owner = userId := hfor
      have hvaults : (db.only naming owner).vaults.filter (·.owner = owner) =
          db.vaults.filter (·.owner = owner) := Db.only_filter fun row hrow => by simpa using hrow
      have hgone : ∀ row : VaultRow, decide (row.owner = owner) = true → row.owner = owner :=
        fun row hrow => by simpa using hrow
      simp only [Statement.run, hvaults, Db.only_dropVaults hgone]
  | deleteUser id =>
      obtain rfl : id = userId := hfor
      simp only [Statement.run, Db.only_dropUser]
  | removeBlobs vaultId =>
      simp only [Statement.run]
      rw [Db.only_setBlobs hfor]
  | attach id deviceId vaultId now revision =>
      obtain ⟨rfl, hvault⟩ := hfor
      simp only [Statement.run, Db.only_attach hnamed hvault deviceId now revision]
      cases db.attach id deviceId vaultId now revision with
      | none => rfl
      | some after => rfl
  | detach id deviceId vaultId =>
      obtain rfl : id = userId := hfor
      simp only [Statement.run, Db.only_detach]
  | write vaultId call =>
      obtain ⟨hanswer, hstate⟩ := Db.only_write hnamed config.toConfig hfor vaultId
      exact Prod.ext hanswer hstate
  | manifest vaultId id ifNoneMatch =>
      obtain rfl : id = userId := hfor
      by_cases hvault : naming.vault vaultId = id
      · simp only [Statement.run, Db.only_state hnamed hvault]
      · -- no row of a vault admits another account, whole tables or not
        simp only [Statement.run, getManifest_stranger (hnamed.notMem_members hvault),
          getManifest_stranger (hnamed.only.notMem_members hvault)]
  | files vaultId =>
      simp only [Statement.run, Db.only_state hnamed hfor]
  | live vaultId pathName =>
      have hblobs : (db.only naming userId).blobs vaultId = db.blobs vaultId := if_pos hfor
      simp only [Statement.run, hblobs]
  | history vaultId tier pathName =>
      have hblobs : (db.only naming userId).blobs vaultId = db.blobs vaultId := if_pos hfor
      simp only [Statement.run, hblobs]

/-- A statement for another account. -/
theorem Statement.run_only_of_ne (hnamed : db.Named naming) (hne : other ≠ userId)
    {statement : Statement} (hfor : statement.For naming other) :
    (statement.run config db).2.only naming userId = db.only naming userId := by
  -- reads leave the tables; each write names an account or a vault of it
  cases statement with
  | session tokenHash now => rfl
  | signIn id device sessionId tokenHash now =>
      obtain ⟨rfl, -, -⟩ := hfor
      simp only [Statement.run]
      cases hsign : db.signIn id device sessionId tokenHash now with
      | none => rfl
      | some after => exact Db.only_signIn_of_ne hne hsign
  | user id => rfl
  | account id call =>
      obtain rfl : id = other := hfor
      exact Db.only_call_of_ne hne call
  | devices id => rfl
  | deleteDevice id deviceId =>
      obtain rfl : id = other := hfor
      exact Db.only_dropDevice_of_ne deviceId hne
  | renameDevice id deviceId name =>
      obtain rfl : id = other := hfor
      exact Db.only_updateDevice_of_ne hne fun row => rfl
  | insertInvite code createdBy now expires =>
      obtain ⟨rfl, -⟩ := hfor
      exact Db.only_insertInvite_of_ne hne code now expires
  | invites createdBy => rfl
  | usage owner => rfl
  | role vaultId id => rfl
  | vaultsOf id => rfl
  | holdersOf id => rfl
  | createVault row wrappedKey =>
      exact Db.only_createVault_of_ne (hfor.1.trans_ne hne) _ wrappedKey
  | renameVault vaultId name =>
      have hvault : naming.vault vaultId = other := hfor
      exact Db.only_updateVault_of_ne hnamed (hvault.trans_ne hne) fun row => rfl
  | deleteVault vaultId owner =>
      obtain rfl : owner = other := hfor
      refine Db.only_dropVaults_of_ne hnamed hne fun row hrow => ?_
      simp only [Bool.and_eq_true, decide_eq_true_eq] at hrow
      exact hrow.2
  | deleteVaultsOf owner =>
      obtain rfl : owner = other := hfor
      exact Db.only_dropVaults_of_ne hnamed hne fun row hrow => by simpa using hrow
  | deleteUser id =>
      obtain rfl : id = other := hfor
      exact Db.only_dropUser_of_ne hnamed hne
  | removeBlobs vaultId =>
      have hvault : naming.vault vaultId = other := hfor
      exact Db.only_setBlobs_of_ne (hvault.trans_ne hne) _
  | attach id deviceId vaultId now revision =>
      obtain ⟨rfl, -⟩ := hfor
      simp only [Statement.run]
      cases hattach : db.attach id deviceId vaultId now revision with
      | none => rfl
      | some after => exact Db.only_attach_of_ne hne hattach
  | detach id deviceId vaultId =>
      obtain rfl : id = other := hfor
      exact Db.only_detach_of_ne hne deviceId
  | write vaultId call =>
      have hcall : call.userId = other := hfor
      exact Db.only_write_of_ne hnamed (hcall.trans_ne hne) vaultId
  | manifest vaultId id ifNoneMatch => rfl
  | files vaultId => rfl
  | live vaultId pathName => rfl
  | history vaultId tier pathName => rfl

/-- A statement for some account keeps the names. -/
theorem Statement.run_named (hnamed : db.Named naming) {statement : Statement}
    (hfor : statement.For naming userId) : (statement.run config db).2.Named naming := by
  cases statement with
  | session tokenHash now => exact hnamed
  | signIn id device sessionId tokenHash now =>
      obtain ⟨rfl, hid, htoken⟩ := hfor
      simp only [Statement.run]
      cases hsign : db.signIn id device sessionId tokenHash now with
      | none => exact hnamed
      | some after => exact hnamed.signIn hid htoken hsign
  | user id => exact hnamed
  | account id call => exact hnamed.call call
  | devices id => exact hnamed
  | deleteDevice id deviceId => exact hnamed.dropDevice deviceId
  | renameDevice id deviceId name => exact hnamed.updateDevice deviceId _
  | insertInvite code createdBy now expires =>
      obtain ⟨rfl, hcode⟩ := hfor
      exact hnamed.insertInvite hcode now expires
  | invites createdBy => exact hnamed
  | usage owner => exact hnamed
  | role vaultId id => exact hnamed
  | vaultsOf id => exact hnamed
  | holdersOf id => exact hnamed
  | createVault row wrappedKey =>
      exact hnamed.createVault (hfor.2.trans hfor.1.symm) _ wrappedKey
  | renameVault vaultId name =>
      refine Db.Named.updateVault hnamed vaultId ?_ ?_
      · exact fun row => rfl
      · exact fun row => rfl
  | deleteVault vaultId owner => exact hnamed.dropVaults _
  | deleteVaultsOf owner => exact hnamed.dropVaults _
  | deleteUser id => exact hnamed.dropUser
  | removeBlobs vaultId => exact hnamed.setBlobs vaultId _
  | attach id deviceId vaultId now revision =>
      obtain ⟨rfl, hvault⟩ := hfor
      simp only [Statement.run]
      cases hattach : db.attach id deviceId vaultId now revision with
      | none => exact hnamed
      | some after => exact hnamed.attach hvault hattach
  | detach id deviceId vaultId => exact hnamed.detach deviceId vaultId
  | write vaultId call => exact hnamed.setState vaultId _
  | manifest vaultId id ifNoneMatch => exact hnamed
  | files vaultId => exact hnamed
  | live vaultId pathName => exact hnamed
  | history vaultId tier pathName => exact hnamed

theorem Statement.run_fitting (hnamed : db.Named naming) (statement : Statement) :
    statement.Fitting naming (statement.run config db).1 := by
  cases statement with
  | session tokenHash now =>
      intro principal hprincipal
      obtain ⟨row, hfind, rfl⟩ := Option.map_eq_some_iff.mp hprincipal
      have hrow := List.find?_some hfind
      simp only [decide_eq_true_eq] at hrow
      rw [← hrow.1]
      exact (hnamed.tokens row (List.mem_of_find?_eq_some hfind)).symm
  | role vaultId id =>
      intro hsome
      obtain ⟨found, hfound⟩ := Option.isSome_iff_exists.mp hsome
      obtain ⟨row, hfind, -⟩ := Option.map_eq_some_iff.mp hfound
      have hrow := List.find?_some hfind
      simp only [MemberRow.isOf, Bool.and_eq_true, decide_eq_true_eq] at hrow
      rw [← hrow.1, hnamed.members row (List.mem_of_find?_eq_some hfind), hrow.2]
  | deleteVaultsOf owner =>
      intro vaultId hmem
      obtain ⟨row, hrow, rfl⟩ := List.mem_map.mp hmem
      obtain ⟨hrow, howner⟩ := List.mem_filter.mp hrow
      rw [hnamed.vaultIds row hrow]
      simpa using howner
  | _ => trivial

/-! ## Routes -/

/-- A statement of a route, after the bearer is known. -/
def Statement.Routine : Statement → Prop
  | .session _ _ | .signIn _ _ _ _ _ => False
  | _ => True

/-- Whatever the account's statements are answered, the next one is the account's. -/
@[irreducible] def Keeps {α : Type} (naming : Naming) (userId : String) (handler : Handler α)
    (post : α → Prop) : Prop :=
  Prog.Abides (fun statement => statement.For naming userId ∧ statement.Routine)
    (Statement.Fitting naming) post handler

/-- What a request makes up is named after the account. -/
def Route.Of (naming : Naming) (config : RouteConfig) (userId : String) : Route → Prop
  | .createInvite codes => ∀ i, naming.invite (codes i) = some userId
  | .createVault body minted =>
      ∀ id maxFileSize, body.check config.toStorageConfig minted = .ok (id, maxFileSize) →
        naming.vault id = userId
  | _ => True

section Routes

variable {α β : Type} {principal : Principal} {now : Nat} {vaultId : String}

@[simp] theorem keeps_pure {post : α → Prop} (value : α) :
    Keeps naming userId (pure value : Handler α) post ↔ post value := by
  unfold Keeps
  exact Iff.rfl

@[simp] theorem keeps_bind (handler : Handler α) (next : α → Handler β) {post : β → Prop} :
    Keeps naming userId (handler >>= next) post ↔
      Keeps naming userId handler fun value => Keeps naming userId (next value) post := by
  unfold Keeps
  exact Prog.abides_bind handler next

/-- A statement of the account, and on with whatever it may reply. -/
theorem Keeps.query {statement : Statement} {next : statement.Reply → Handler β} {post : β → Prop}
    (hfor : statement.For naming userId) (hroutine : statement.Routine)
    (hnext : ∀ reply, statement.Fitting naming reply →
      Keeps naming userId (next reply) post) :
    Keeps naming userId (Tables.query statement >>= next) post := by
  unfold Keeps at hnext ⊢
  exact ⟨⟨hfor, hroutine⟩, hnext⟩

/-- Nothing more is asked. -/
theorem keeps_done (value : α) : Keeps naming userId (pure value : Handler α) fun _ => True :=
  (keeps_pure value).mpr trivial

theorem Keeps.mono {handler : Handler α} {post post' : α → Prop}
    (hkeeps : Keeps naming userId handler post) (hpost : ∀ value, post value → post' value) :
    Keeps naming userId handler post' := by
  unfold Keeps at hkeeps ⊢
  exact hkeeps.mono hpost

/-- A route of the account. -/
abbrev KeepsTo (naming : Naming) (userId : String) (handler : Handler Response) : Prop :=
  Keeps naming userId handler fun _ => True

theorem keeps_memberRole (vaultId : String) :
    Keeps naming userId (memberRole vaultId userId)
      fun role => ∀ found, role = .ok found → naming.vault vaultId = userId := by
  unfold memberRole
  split
  next =>
    rw [keeps_pure]
    intro found hfound
    cases hfound
  next =>
    refine Keeps.query rfl trivial fun role hfitting => ?_
    cases role with
    | none =>
        refine (keeps_pure _).mpr fun found hfound => ?_
        cases hfound
    | some role => exact (keeps_pure _).mpr fun _ _ => hfitting rfl

theorem keeps_asMember {next : Handler Response}
    (hnext : naming.vault vaultId = userId → KeepsTo naming userId next) :
    KeepsTo naming userId (asMember vaultId userId next) := by
  unfold asMember
  rw [KeepsTo, keeps_bind]
  refine (keeps_memberRole vaultId).mono fun role hrole => ?_
  cases role with
  | error error => exact keeps_done _
  | ok found => exact hnext (hrole found rfl)

theorem keeps_asOwner {next : Handler Response}
    (hnext : naming.vault vaultId = userId → KeepsTo naming userId next) :
    KeepsTo naming userId (asOwner vaultId userId next) := by
  unfold asOwner
  rw [KeepsTo, keeps_bind]
  refine (keeps_memberRole vaultId).mono fun role hrole => ?_
  cases role with
  | error error => exact keeps_done _
  | ok found =>
      cases found with
      | owner => exact hnext (hrole .owner rfl)
      | member => exact keeps_done _

theorem keeps_me (hprincipal : principal.userId = userId) :
    KeepsTo naming userId (me config principal now) := by
  unfold me usageFor
  rw [KeepsTo, keeps_bind]
  refine Keeps.query hprincipal trivial fun vaults _ => ?_
  rw [keeps_pure]
  refine Keeps.query hprincipal trivial fun user _ => ?_
  cases user with
  | none => exact keeps_done _
  | some user => exact Keeps.query hprincipal trivial fun devices _ => keeps_done _

theorem keeps_revokeDevice (hprincipal : principal.userId = userId) (deviceId : String) :
    KeepsTo naming userId (revokeDevice principal deviceId) := by
  refine Keeps.query hprincipal trivial fun there _ => ?_
  split <;> exact keeps_done _

theorem keeps_renameDevice (hprincipal : principal.userId = userId) (deviceId : String)
    (name : Option String) : KeepsTo naming userId (renameDevice principal deviceId name) := by
  refine Keeps.query hprincipal trivial fun there _ => ?_
  split <;> exact keeps_done _

theorem keeps_removeAllBlobs {vaultIds : List String}
    (hvaults : ∀ vaultId ∈ vaultIds, naming.vault vaultId = userId) :
    Keeps naming userId (removeAllBlobs vaultIds) fun _ => True := by
  induction vaultIds with
  | nil => exact keeps_done _
  | cons vaultId rest ih =>
      exact Keeps.query (hvaults vaultId List.mem_cons_self) trivial fun _ _ =>
        ih fun other hother => hvaults other (List.mem_cons_of_mem _ hother)

theorem keeps_deleteAccount (hprincipal : principal.userId = userId) :
    KeepsTo naming userId (deleteAccount principal) := by
  refine Keeps.query hprincipal trivial fun vaultIds hvaults => ?_
  refine Keeps.query hprincipal trivial fun _ _ => ?_
  rw [keeps_bind]
  exact (keeps_removeAllBlobs fun vaultId hmem =>
    (hvaults vaultId hmem).trans hprincipal).mono fun _ _ => keeps_done _

theorem keeps_mintInvite (attempts : Nat) {codes : Nat → String}
    (hcodes : ∀ i, naming.invite (codes i) = some userId) :
    KeepsTo naming userId (mintInvite userId now attempts codes) := by
  induction attempts generalizing codes with
  | zero => exact keeps_done _
  | succ attempts ih =>
      refine Keeps.query ⟨rfl, hcodes 0⟩ trivial fun inserted _ => ?_
      rcases inserted with _ | _ | _
      · exact keeps_done _
      · exact ih fun i => hcodes (i + 1)
      · exact keeps_done _

theorem keeps_listInvites (hprincipal : principal.userId = userId) :
    KeepsTo naming userId (listInvites principal now) :=
  Keeps.query hprincipal trivial fun _ _ => keeps_done _

theorem keeps_listVaults (hprincipal : principal.userId = userId) :
    KeepsTo naming userId (listVaults principal) :=
  Keeps.query hprincipal trivial fun _ _ => Keeps.query hprincipal trivial fun _ _ => keeps_done _

theorem keeps_createVault (hprincipal : principal.userId = userId) {body : Storage.CreateBody}
    {minted : String}
    (hmints : ∀ id maxFileSize, body.check config.toStorageConfig minted = .ok (id, maxFileSize) →
      naming.vault id = userId) :
    KeepsTo naming userId (createVault config principal body minted now) := by
  unfold createVault
  split
  next => exact keeps_done _
  next id maxFileSize hcheck =>
    refine Keeps.query ⟨hprincipal, hmints id maxFileSize hcheck⟩ trivial fun outcome _ => ?_
    cases outcome with
    | error error => exact keeps_done _
    | ok value => exact keeps_done _

theorem keeps_renameVault (hprincipal : principal.userId = userId) (name : Option String) :
    KeepsTo naming userId (renameVault principal vaultId name) := by
  subst hprincipal
  unfold renameVault
  split
  next => exact keeps_done _
  next => exact keeps_asOwner fun hvault => Keeps.query hvault trivial fun _ _ => keeps_done _

theorem keeps_deleteVault (hprincipal : principal.userId = userId) :
    KeepsTo naming userId (deleteVault principal vaultId) := by
  subst hprincipal
  refine keeps_asOwner fun hvault => ?_
  refine Keeps.query rfl trivial fun deleted _ => ?_
  split
  next => exact Keeps.query hvault trivial fun _ _ => keeps_done _
  next => exact keeps_done _

theorem keeps_attachSelf (hprincipal : principal.userId = userId) (revision : Option Nat) :
    KeepsTo naming userId (attachSelf principal vaultId revision now) := by
  subst hprincipal
  refine keeps_asMember fun hvault => ?_
  refine Keeps.query ⟨rfl, hvault⟩ trivial fun attached _ => ?_
  split <;> exact keeps_done _

theorem keeps_detachSelf (hprincipal : principal.userId = userId) :
    KeepsTo naming userId (detachSelf principal vaultId) := by
  subst hprincipal
  exact keeps_asMember fun _ => Keeps.query rfl trivial fun _ _ => keeps_done _

theorem keeps_manifestRoute (hprincipal : principal.userId = userId)
    (ifNoneMatch : Option String) :
    KeepsTo naming userId (manifestRoute principal vaultId ifNoneMatch) :=
  Keeps.query hprincipal trivial fun _ _ => keeps_done _

theorem keeps_fileRoute (hprincipal : principal.userId = userId) (path : String) :
    KeepsTo naming userId (fileRoute config principal vaultId path) := by
  subst hprincipal
  refine keeps_asMember fun hvault => ?_
  split
  next => exact keeps_done _
  next => exact Keeps.query hvault trivial fun _ _ => keeps_done _

theorem keeps_writeRoute (hprincipal : principal.userId = userId) (moment : Moment)
    (request : Request) : KeepsTo naming userId (writeRoute principal vaultId moment request) :=
  Keeps.query hprincipal trivial fun _ _ => keeps_done _

theorem keeps_putFileRoute (hprincipal : principal.userId = userId) (path : String)
    (headers : Headers) (moment : Moment) (body : Bytes) :
    KeepsTo naming userId (putFileRoute config principal vaultId path headers moment body) := by
  unfold putFileRoute
  split
  next => exact keeps_done _
  next => exact keeps_writeRoute hprincipal moment _

theorem keeps_applyOps (hprincipal : principal.userId = userId) (moments : Nat → Moment)
    (ops : List ParsedOp) :
    Keeps naming userId (applyOps principal vaultId moments ops) fun _ => True := by
  induction ops generalizing moments with
  | nil => exact keeps_done _
  | cons op rest ih =>
      rw [applyOps]
      refine Keeps.query hprincipal trivial fun outcome _ => ?_
      generalize operationResult op.path outcome = result
      cases result with
      | error error => exact keeps_done _
      | ok result =>
          rw [keeps_bind]
          exact (ih _).mono fun _ _ => keeps_done _

theorem keeps_batchRoute (hprincipal : principal.userId = userId) (moments : Nat → Moment)
    (multipart : Except MultipartRejection Multipart) :
    KeepsTo naming userId (batchRoute config principal vaultId moments multipart) := by
  unfold batchRoute
  split
  next => exact keeps_done _
  next => exact keeps_done _
  next multipart =>
    split
    next => exact keeps_done _
    next ops hparse =>
      simp only [KeepsTo, keeps_bind]
      exact (keeps_applyOps hprincipal moments ops).mono fun _ _ => keeps_done _

theorem keeps_listVersions (hprincipal : principal.userId = userId) (path : String) :
    KeepsTo naming userId (listVersions config principal vaultId path) := by
  subst hprincipal
  refine keeps_asMember fun hvault => ?_
  split
  next => exact keeps_done _
  next => exact Keeps.query hvault trivial fun _ _ => keeps_done _

theorem keeps_getVersion (hprincipal : principal.userId = userId) (name path : String) :
    KeepsTo naming userId (getVersion config principal vaultId name path) := by
  subst hprincipal
  refine keeps_asMember fun hvault => ?_
  split
  next => exact keeps_done _
  next => exact Keeps.query hvault trivial fun _ _ => keeps_done _

theorem keeps_listTrash (hprincipal : principal.userId = userId) :
    KeepsTo naming userId (listTrash principal vaultId) := by
  subst hprincipal
  exact keeps_asMember fun hvault => Keeps.query hvault trivial fun _ _ => keeps_done _

theorem keeps_getTrash (hprincipal : principal.userId = userId) (path : String) :
    KeepsTo naming userId (getTrash config principal vaultId path) := by
  subst hprincipal
  refine keeps_asMember fun hvault => ?_
  split
  next => exact keeps_done _
  next =>
    refine Keeps.query hvault trivial fun dir _ => ?_
    split
    next => exact keeps_done _
    next => exact Keeps.query hvault trivial fun _ _ => keeps_done _

theorem keeps_account (hprincipal : principal.userId = userId) (call : AccountCall) :
    KeepsTo naming userId (query (.account principal.userId call)) :=
  Keeps.query hprincipal trivial fun _ _ => keeps_done _

theorem keeps_dispatch (hprincipal : principal.userId = userId) {route : Route}
    (hroute : route.Of naming config userId) :
    KeepsTo naming userId (dispatch config principal now route) := by
  cases route with
  | me => exact keeps_me hprincipal
  | signOut => exact keeps_revokeDevice hprincipal principal.deviceId
  | revokeDevice deviceId => exact keeps_revokeDevice hprincipal deviceId
  | renameDevice deviceId name => exact keeps_renameDevice hprincipal deviceId name
  | deleteAccount => exact keeps_deleteAccount hprincipal
  | createInvite codes =>
      subst hprincipal
      exact keeps_mintInvite 8 hroute
  | listInvites => exact keeps_listInvites hprincipal
  | getKeys => exact keeps_account hprincipal _
  | setKeys body keyId => exact keeps_account hprincipal _
  | rewrapKeys body => exact keeps_account hprincipal _
  | registerApproval publicKey => exact keeps_account hprincipal _
  | pollApproval => exact keeps_account hprincipal _
  | cancelApproval => exact keeps_account hprincipal _
  | approveDevice deviceId body => exact keeps_account hprincipal _
  | listVaults => exact keeps_listVaults hprincipal
  | createVault body minted =>
      rw [dispatch]
      exact keeps_createVault hprincipal hroute
  | renameVault vaultId name =>
      rw [dispatch]
      exact keeps_renameVault hprincipal name
  | deleteVault vaultId => exact keeps_deleteVault hprincipal
  | attachSelf vaultId revision => exact keeps_attachSelf hprincipal revision
  | detachSelf vaultId => exact keeps_detachSelf hprincipal
  | getManifest vaultId ifNoneMatch => exact keeps_manifestRoute hprincipal ifNoneMatch
  | getFile vaultId path => exact keeps_fileRoute hprincipal path
  | putFile vaultId path headers moment body =>
      exact keeps_putFileRoute hprincipal path headers moment body
  | deleteFile vaultId path headers moment =>
      exact keeps_writeRoute hprincipal moment (.delete path (headerStr headers.parentHash))
  | batch vaultId moments multipart => exact keeps_batchRoute hprincipal moments multipart
  | listVersions vaultId path => exact keeps_listVersions hprincipal path
  | getVersion vaultId name path => exact keeps_getVersion hprincipal name path
  | listTrash vaultId => exact keeps_listTrash hprincipal
  | getTrash vaultId path => exact keeps_getTrash hprincipal path
  | badBody => exact keeps_done _

end Routes

/-! ## Requests and what happens besides -/

/-- The token a request shows and what it makes up are named after the account. -/
def Incoming.Of (naming : Naming) (config : RouteConfig) (userId : String) : Incoming → Prop
  | .route authorization _ _ asked =>
      (∀ token ∈ bearer authorization, naming.token (config.tokenHash token) = userId) ∧
        asked.Of naming config userId
  | .signIn id _ _ sessionId token _ =>
      id = userId ∧ naming.session sessionId = userId ∧
        naming.token (config.tokenHash token) = userId

theorem abides_handle {incoming : Incoming} (hof : incoming.Of naming config userId) :
    Prog.Abides (Statement.For naming userId) (Statement.Fitting naming) (fun _ => True)
      (incoming.handle config) := by
  cases incoming with
  | route authorization resolvedAt now asked =>
      obtain ⟨htoken, hasked⟩ := hof
      simp only [Incoming.handle, resolve]
      cases hbearer : bearer authorization with
      | none => trivial
      | some token =>
          refine ⟨htoken token hbearer, fun principal hprincipal => ?_⟩
          cases principal with
          | none => trivial
          | some principal =>
              have howner := (hprincipal principal rfl).trans (htoken token hbearer)
              have hkeeps : KeepsTo naming userId (dispatch config principal now asked) :=
                keeps_dispatch howner hasked
              unfold KeepsTo Keeps at hkeeps
              exact hkeeps.weaken fun _ hfor => hfor.1
  | signIn id email device sessionId token now =>
      refine ⟨hof, fun signed _ => ?_⟩
      cases signed with
      | false => trivial
      | true => trivial

/-- What the account can notice. -/
def Outside.concerns (naming : Naming) (userId : String) : Outside → Bool
  | .signUp row => row.id = userId
  | .redeem code _ => naming.invite code = some userId
  | .expireSessions _ | .expireApprovals _ => true
  | .prune vaultId _ _ _ | .sweep vaultId => naming.vault vaultId = userId

theorem Outside.act_named (hnamed : db.Named naming) (what : Outside) :
    (what.act db).Named naming := by
  cases what with
  | signUp row => exact hnamed.congr rfl rfl rfl rfl rfl
  | redeem code now =>
      exact { hnamed with codes := Select.forall_changed hnamed.codes fun _ _ hrow => hrow }
  | expireSessions now =>
      exact hnamed.mono (List.filter_subset_self _) (List.Subset.refl _) (List.Sublist.refl _)
        (List.Subset.refl _) (List.Subset.refl _)
  | expireApprovals now => exact hnamed.congr rfl rfl rfl rfl rfl
  | prune vaultId tier pathName entry => exact hnamed.setBlobs vaultId _
  | sweep vaultId =>
      simp only [Outside.act]
      split
      next => exact hnamed
      next => exact hnamed.setBlobs vaultId _

theorem Outside.act_only (hnamed : db.Named naming) {what : Outside}
    (hconcerns : what.concerns naming userId = true) :
    what.act (db.only naming userId) = (what.act db).only naming userId := by
  cases what with
  | signUp row =>
      simp only [Outside.concerns, decide_eq_true_eq] at hconcerns
      have husers : (db.only naming userId).users ++ [row] =
          (db.users ++ [row]).filter (·.id = userId) := by
        simp [Db.only, List.filter_append, hconcerns]
      exact congrArg (fun users => { db.only naming userId with users }) husers
  | redeem code now =>
      have hinvites : (Outside.act (.redeem code now) db).invites.filter
          (·.createdBy = some userId) =
            (Outside.act (.redeem code now) (db.only naming userId)).invites :=
        Select.filter_changed fun row _ => rfl
      exact congrArg (fun invites => { db.only naming userId with invites }) hinvites.symm
  | expireSessions now =>
      exact congrArg (fun sessions => { db.only naming userId with sessions })
        (Select.filter_comm _ _ _)
  | expireApprovals now =>
      have hdevices : (Outside.act (.expireApprovals now) db).devices.filter
          (·.userId = userId) =
            (Outside.act (.expireApprovals now) (db.only naming userId)).devices :=
        Select.filter_changed fun row _ => rfl
      exact congrArg (fun devices => { db.only naming userId with devices }) hdevices.symm
  | prune vaultId tier pathName entry =>
      simp only [Outside.concerns, decide_eq_true_eq] at hconcerns
      have hblobs : (db.only naming userId).blobs vaultId = db.blobs vaultId := if_pos hconcerns
      simp only [Outside.act, hblobs, Db.only_setBlobs hconcerns]
  | sweep vaultId =>
      simp only [Outside.concerns, decide_eq_true_eq] at hconcerns
      simp only [Outside.act, Db.only_hasVault hnamed hconcerns]
      split
      next => rfl
      next => rw [Db.only_setBlobs hconcerns]

theorem Outside.act_only_of_not (hnamed : db.Named naming) {what : Outside}
    (hconcerns : what.concerns naming userId = false) :
    (what.act db).only naming userId = db.only naming userId := by
  cases what with
  | signUp row =>
      simp only [Outside.concerns, decide_eq_false_iff_not] at hconcerns
      have husers : (db.users ++ [row]).filter (·.id = userId) = (db.only naming userId).users := by
        simp [Db.only, List.filter_append, hconcerns]
      exact congrArg (fun users => { db.only naming userId with users }) husers
  | redeem code now =>
      simp only [Outside.concerns, decide_eq_false_iff_not] at hconcerns
      have hinvites : (Outside.act (.redeem code now) db).invites.filter
          (·.createdBy = some userId) = (db.only naming userId).invites := by
        refine Select.filter_changed_other (fun row hmem hrow => ?_) fun row _ => rfl
        rw [← hrow, hnamed.codes row hmem] at hconcerns
        simpa using hconcerns
      exact congrArg (fun invites => { db.only naming userId with invites }) hinvites
  | expireSessions now => cases hconcerns
  | expireApprovals now => cases hconcerns
  | prune vaultId tier pathName entry =>
      simp only [Outside.concerns, decide_eq_false_iff_not] at hconcerns
      exact Db.only_setBlobs_of_ne hconcerns _
  | sweep vaultId =>
      simp only [Outside.concerns, decide_eq_false_iff_not] at hconcerns
      simp only [Outside.act]
      split
      next => rfl
      next => exact Db.only_setBlobs_of_ne hconcerns _

/-! ## The server -/

/-- The requests of one account and those of all others. -/
theorem serving_divides (config : RouteConfig) (naming : Naming) (account : Nat → String)
    (userId : String) :
    Apart.Divides (serving config) (Db.Named naming)
      (fun id => Statement.For naming (account id)) (Statement.Fitting naming)
      (fun id => account id = userId) (Db.only naming userId) (Outside.concerns naming userId) where
  perform id statement db hnamed hfor :=
    ⟨Statement.run_named hnamed hfor, Statement.run_fitting hnamed statement⟩
  happen what db hnamed := Outside.act_named hnamed what
  own id statement db hmine hnamed hfor := by
    have hid : account id = userId := by simpa using hmine
    exact Statement.run_only hnamed (hid ▸ hfor)
  others id statement db hmine hnamed hfor := by
    have hid : account id ≠ userId := by simpa using hmine
    exact Statement.run_only_of_ne hnamed hid hfor
  heeds what db hseen hnamed := Outside.act_only hnamed hseen
  ignores what db hseen hnamed := Outside.act_only_of_not hnamed hseen

/-- The events an account has to do with. -/
def concerning (naming : Naming) (account : Nat → String) (userId : String) :
    Apart.Event Incoming Outside → Bool :=
  Apart.Event.concerns (fun id => account id = userId) (Outside.concerns naming userId)

/-- In every order of arrivals, statements and outside events, an account's
requests come as far, with the same answers, as they would on its rows and blobs
alone; and what is left of these is the same. -/
theorem accounts_are_apart (config : RouteConfig) (naming : Naming) (account : Nat → String)
    (userId : String) {db : Db} (hnamed : db.Named naming)
    {events : List (Apart.Event Incoming Outside)}
    (hof : ∀ id incoming, .arrive id incoming ∈ events →
      incoming.Of naming config (account id)) :
    let together := Apart.run (serving config) events (.idle db)
    let alone := Apart.run (serving config) (events.filter (concerning naming account userId))
      (.idle (db.only naming userId))
    alone.world = together.world.only naming userId ∧
      ∀ id, account id = userId → alone.progs id = together.progs id := by
  intro together alone
  have hdivides := serving_divides config naming account userId
  have hidle : (Apart.State.idle db : Apart.State Statement Statement.Reply Db Response).part
      (fun id => account id = userId) (Db.only naming userId) =
        .idle (db.only naming userId) := by
    refine congrArg (Apart.State.mk _) (funext fun id => ?_)
    split <;> rfl
  have hrun := hdivides.run (.idle db) hnamed Apart.State.all_idle
    fun id incoming hmem => abides_handle (hof id incoming hmem)
  rw [hidle] at hrun
  refine ⟨congrArg Apart.State.world hrun, fun id hid => ?_⟩
  have hprog := congrFun (congrArg Apart.State.progs hrun) id
  exact hprog.trans (if_pos (by simpa using hid))

/-! ## Two accounts at the same time -/

def sampleRoutes : RouteConfig where
  toStorageConfig := Storage.sampleStorage
  tokenHash := fun token => token.toList.map fun c => c.toNat.toUInt8
  serde := ⟨fun _ => none, fun _ => [], fun text => text⟩

def keySet : Account.KeyColumns UInt8 := { enc := some [], salt := some [], id := some "key_1" }

/-- Two accounts with a passphrase, `ann` with a vault. -/
def sampleDb : Db where
  users := [{ id := "ann", email := none, created := 0, keys := keySet },
    { id := "bob", email := none, created := 0, keys := keySet }]
  devices := [{ userId := "ann", id := "mac", name := "Mac", platform := "macos", created := 0
                lastSeen := 0 },
    { userId := "bob", id := "mac", name := "Mac", platform := "macos", created := 0
      lastSeen := 0 }]
  sessions := [⟨"ses_ann", "ann", "mac", sampleRoutes.tokenHash "os_ann", 0, 1000⟩,
    ⟨"ses_bob", "bob", "mac", sampleRoutes.tokenHash "os_bob", 0, 1000⟩]
  vaults := [{ id := emptyVault.id, owner := "ann", name := "Notes", created := 0
               maxFileSize := 100, lastWrite := 0 }]
  members := [⟨emptyVault.id, "ann", "owner", some [], 0⟩]

def sampleNaming : Naming where
  token hash := if hash = sampleRoutes.tokenHash "os_bob" then "bob" else "ann"
  session id := if id = "ses_bob" then "bob" else "ann"
  vault id := if id = emptyVault.id then "ann" else "bob"
  invite _ := none

/-- The first request is `ann`'s, all others are `bob`'s. -/
def sampleOwner (id : Nat) : String := if id = 0 then "ann" else "bob"

/-- `ann` asks for her manifest; `bob` for hers too, and he signs out. -/
def sampleIncoming (id : Nat) : Incoming :=
  match id with
  | 0 => .route (some "Bearer os_ann") 1 1 (.getManifest emptyVault.id none)
  | 1 => .route (some "Bearer os_bob") 1 1 (.getManifest emptyVault.id none)
  | _ => .route (some "Bearer os_bob") 1 1 .signOut

def sampleEvents : List (Apart.Event Incoming Outside) :=
  [.arrive 0 (sampleIncoming 0), .arrive 1 (sampleIncoming 1), .arrive 2 (sampleIncoming 2),
    .step 1, .step 0, .step 2, .step 2, .step 0, .step 1]

theorem sampleDb_named : sampleDb.Named sampleNaming where
  tokens := by decide
  sessionIds := by decide
  codes := by decide
  vaultIds := by decide
  members := by decide
  holdings := by decide
  distinct := by decide

theorem sampleIncoming_of (id : Nat) :
    (sampleIncoming id).Of sampleNaming sampleRoutes (sampleOwner id) := by
  rcases id with _ | _ | id
  · exact ⟨by decide, trivial⟩
  · exact ⟨by decide, trivial⟩
  · have howner : sampleOwner (id + 1 + 1) = "bob" := if_neg (by omega)
    rw [howner]
    exact ⟨by decide, trivial⟩

/-- `bob` is told nothing of a vault that is `ann`'s. -/
theorem ann_and_bob_are_apart_in_sample :
    let together := Apart.run (serving sampleRoutes) sampleEvents (.idle sampleDb)
    let alone := Apart.run (serving sampleRoutes)
      (sampleEvents.filter (concerning sampleNaming sampleOwner "ann"))
      (.idle (sampleDb.only sampleNaming "ann"))
    together.progs 1 = some (.pure (.error vaultNotFound)) ∧
      alone.world = together.world.only sampleNaming "ann" ∧
        ∀ id, sampleOwner id = "ann" → alone.progs id = together.progs id := by
  refine ⟨rfl, ?_⟩
  refine accounts_are_apart sampleRoutes sampleNaming sampleOwner "ann" sampleDb_named ?_
  intro id incoming hmem
  simp only [sampleEvents, List.mem_cons, Apart.Event.arrive.injEq, reduceCtorEq, List.not_mem_nil,
    or_false] at hmem
  rcases hmem with ⟨rfl, rfl⟩ | ⟨rfl, rfl⟩ | ⟨rfl, rfl⟩
  · exact sampleIncoming_of 0
  · exact sampleIncoming_of 1
  · exact sampleIncoming_of 2

end ObSink.Server.Tables
