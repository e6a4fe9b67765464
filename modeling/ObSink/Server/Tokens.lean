import ObSink.Server.Tenancy

/-! # Tokens that are refused

A token is refused once its session has expired, its device has signed out, was
revoked or signed in anew, or its account was deleted. Whatever other requests
do at the same time, it stays refused.
-/

namespace ObSink.Server.Tables

variable {config : RouteConfig} {tokenHash : Bytes} {since : Nat} {db : Db}

/-- From this time on no session has the token. -/
def Db.Refuses (tokenHash : Bytes) (since : Nat) (db : Db) : Prop :=
  ∀ row ∈ db.sessions, row.tokenHash = tokenHash → row.expires ≤ since

/-- A sign-in that gives the token out. -/
def Statement.Mints (tokenHash : Bytes) : Statement → Prop
  | .signIn _ _ _ minted _ => minted = tokenHash
  | _ => False

/-- A statement after which no session has the token, or that found none. -/
def Statement.Ends (tokenHash : Bytes) (since : Nat) (db : Db) : Statement → Prop
  | .session hash now => hash = tokenHash ∧ now = since ∧
      ∀ row ∈ db.sessions, row.tokenHash = tokenHash → row.expires ≤ now
  | .deleteDevice userId deviceId =>
      ∀ row ∈ db.sessions, row.tokenHash = tokenHash → row.isOf userId deviceId = true
  | .signIn userId device sessionId minted now => minted ≠ tokenHash ∧
      (db.signIn userId device sessionId minted now).isSome ∧
        ∀ row ∈ db.sessions, row.tokenHash = tokenHash → row.isOf userId device.id = true
  | .deleteUser id => ∀ row ∈ db.sessions, row.tokenHash = tokenHash → row.userId = id
  | _ => False

/-- The sessions after a sign-in. -/
theorem Db.signIn_sessions {userId : String} {device : DeviceIdentity} {sessionId : String}
    {minted : Bytes} {now : Nat} {after : Db}
    (hsign : db.signIn userId device sessionId minted now = some after) :
    after.sessions = (db.sessions.filter fun old => !old.isOf userId device.id) ++
      [⟨sessionId, userId, device.id, minted, now, now + sessionTtlSecs⟩] := by
  simp only [Db.signIn] at hsign
  split at hsign
  next =>
    obtain rfl := Option.some.inj hsign
    have hupsert : (db.upsertDevice userId device now).sessions = db.sessions := by
      unfold Db.upsertDevice
      split <;> rfl
    simp only [Db.replaceSession, hupsert]
  next => cases hsign

theorem Db.attach_sessions {userId deviceId vaultId : String} {now : Nat} {revision : Option Nat}
    {after : Db} (hattach : db.attach userId deviceId vaultId now revision = some after) :
    after.sessions = db.sessions := by
  simp only [Db.attach] at hattach
  split at hattach
  next =>
    cases revision with
    | none => exact Option.some.inj hattach ▸ rfl
    | some revision => exact Option.some.inj hattach ▸ rfl
  next =>
    split at hattach
    next => exact Option.some.inj hattach ▸ rfl
    next => cases hattach

/-- Only a sign-in adds a session. -/
theorem Statement.run_sessions (statement : Statement)
    (hother : ∀ userId device sessionId minted now,
      statement ≠ .signIn userId device sessionId minted now) :
    (statement.run config db).2.sessions ⊆ db.sessions := by
  cases statement with
  | signIn userId device sessionId minted now =>
      exact absurd rfl (hother userId device sessionId minted now)
  | deleteDevice userId deviceId => exact List.filter_subset_self _
  | deleteUser id => exact List.filter_subset_self _
  | account userId call =>
      simp only [Statement.run, AccountCall.run]
      split <;> exact List.Subset.refl _
  | insertInvite code createdBy now expires =>
      simp only [Statement.run, Db.insertInvite]
      repeat' split
      all_goals exact List.Subset.refl _
  | createVault row wrappedKey =>
      simp only [Statement.run, Db.createVault]
      repeat' split
      all_goals exact List.Subset.refl _
  | attach userId deviceId vaultId now revision =>
      simp only [Statement.run]
      split
      next after hattach => exact Db.attach_sessions hattach ▸ List.Subset.refl _
      next => exact List.Subset.refl _
  | _ => exact List.Subset.refl _

theorem Db.Refuses.run (hrefuses : db.Refuses tokenHash since) {statement : Statement}
    (hmint : ¬statement.Mints tokenHash) :
    (statement.run config db).2.Refuses tokenHash since := by
  cases statement with
  | signIn userId device sessionId minted now =>
      simp only [Statement.run]
      split
      next after hsign =>
        intro row hrow hhash
        rw [Db.signIn_sessions hsign] at hrow
        rcases List.mem_append.mp hrow with hold | hnew
        · exact hrefuses row (List.mem_of_mem_filter hold) hhash
        · obtain rfl := List.mem_singleton.mp hnew
          exact absurd hhash hmint
      next => exact hrefuses
  | _ => exact fun row hrow => hrefuses row (Statement.run_sessions _ (by simp) hrow)

theorem Statement.Ends.refuses {statement : Statement} (hends : statement.Ends tokenHash since db) :
    (statement.run config db).2.Refuses tokenHash since := by
  cases statement with
  | session hash now =>
      obtain ⟨-, rfl, hnone⟩ := hends
      exact hnone
  | deleteDevice userId deviceId =>
      intro row hrow hhash
      obtain ⟨hrow, hother⟩ := List.mem_filter.mp hrow
      simp [hends row hrow hhash] at hother
  | signIn userId device sessionId minted now =>
      obtain ⟨hminted, hsome, hdevice⟩ := hends
      obtain ⟨after, hsign⟩ := Option.isSome_iff_exists.mp hsome
      simp only [Statement.run, hsign]
      intro row hrow hhash
      rw [Db.signIn_sessions hsign] at hrow
      rcases List.mem_append.mp hrow with hold | hnew
      · obtain ⟨hold, hother⟩ := List.mem_filter.mp hold
        simp [hdevice row hold hhash] at hother
      · obtain rfl := List.mem_singleton.mp hnew
        exact absurd hhash hminted
  | deleteUser id =>
      intro row hrow hhash
      obtain ⟨hrow, hother⟩ := List.mem_filter.mp hrow
      simp [hends row hrow hhash] at hother
  | _ => exact hends.elim

theorem Db.Refuses.act (hrefuses : db.Refuses tokenHash since) (what : Outside) :
    (what.act db).Refuses tokenHash since := by
  cases what with
  | expireSessions now => exact fun row hrow => hrefuses row (List.mem_of_mem_filter hrow)
  | sweep vaultId =>
      simp only [Outside.act]
      split <;> exact hrefuses
  | _ => exact hrefuses

/-- A look-up of the token after that time finds no session. -/
theorem Db.Refuses.session (config : RouteConfig) (hrefuses : db.Refuses tokenHash since)
    {now : Nat} (hnow : since ≤ now) :
    ((Statement.session tokenHash now).run config db).1 = none := by
  have hnone :
      (db.sessions.find? fun row => row.tokenHash = tokenHash ∧ now < row.expires) = none :=
    List.find?_eq_none.mpr fun row hrow hfound => by
      simp only [decide_eq_true_eq] at hfound
      have hexpired := hrefuses row hrow hfound.1
      omega
  simp only [Statement.run, hnone, Option.map_none]

/-! ## Requests -/

/-- No route signs in. -/
theorem dispatch_routine (config : RouteConfig) (principal : Principal) (now : Nat)
    (route : Route) :
    Prog.Abides Statement.Routine (fun _ _ => True) (fun _ => True)
      (dispatch config principal now route) := by
  -- names that are all the principal's make every reply of a routine statement fitting
  let naming : Naming := ⟨fun _ => principal.userId, fun _ => principal.userId,
    fun _ => principal.userId, fun _ => some principal.userId⟩
  have hroute : route.Of naming config principal.userId := by
    cases route with
    | createInvite codes => exact fun _ => rfl
    | createVault body minted => exact fun _ _ _ => rfl
    | _ => trivial
  have hkeeps : KeepsTo naming principal.userId (dispatch config principal now route) :=
    keeps_dispatch rfl hroute
  unfold KeepsTo Keeps at hkeeps
  refine Prog.Abides.weaken (Prog.Abides.relax hkeeps ?_) fun statement hboth => hboth.2
  rintro statement ⟨hfor, hroutine⟩ reply -
  cases statement with
  | session hash now => exact hroutine.elim
  | role vaultId userId => exact fun _ => Eq.symm hfor
  | deleteVaultsOf owner => exact fun vaultId _ => Eq.symm hfor
  | _ => trivial

/-- What a request does, but for a sign-in with this very token. -/
theorem handle_mints {incoming : Incoming}
    (hfresh : ∀ userId email device sessionId token now,
      incoming = .signIn userId email device sessionId token now →
        config.tokenHash token ≠ tokenHash) :
    Prog.Abides (fun statement => ¬statement.Mints tokenHash) (fun _ _ => True) (fun _ => True)
      (incoming.handle config) := by
  cases incoming with
  | route authorization resolvedAt now asked =>
      simp only [Incoming.handle, resolve]
      cases bearer authorization with
      | none => trivial
      | some token =>
          refine ⟨id, fun principal _ => ?_⟩
          cases principal with
          | none => trivial
          | some principal =>
              refine (dispatch_routine config principal now asked).weaken fun statement hroutine =>
                ?_
              cases statement with
              | signIn userId device sessionId minted now => exact hroutine.elim
              | _ => exact id
  | signIn userId email device sessionId token now =>
      refine ⟨hfresh userId email device sessionId token now rfl, fun signed _ => ?_⟩
      cases signed with
      | false => trivial
      | true => trivial

/-- A request that shows a token looks its session up first. -/
theorem handle_route {authorization : Option String} {token : String} {resolvedAt now : Nat}
    {asked : Route} (hbearer : bearer authorization = some token) :
    (Incoming.route authorization resolvedAt now asked).handle config =
      .act (.session (config.tokenHash token) resolvedAt) fun principal =>
        match principal with
        | none => .pure (.error unauthorized)
        | some principal => dispatch config principal now asked := by
  simp only [Incoming.handle, resolve, hbearer]
  refine congrArg (Prog.act _) (funext fun principal => ?_)
  cases principal with
  | none => rfl
  | some principal => rfl

theorem serving_keeps_refusal (config : RouteConfig) (tokenHash : Bytes) (since : Nat) :
    Apart.Keeps (serving config) (Db.Refuses tokenHash since)
      (fun _ statement => ¬statement.Mints tokenHash) (fun _ _ => True) where
  perform _ _ _ hrefuses hmint := ⟨hrefuses.run hmint, trivial⟩
  happen what _ hrefuses := hrefuses.act what

/-- A request that has come no further than to its refusal. -/
def NoFurther (config : RouteConfig) (request : Incoming) (prog : Handler Response) : Prop :=
  prog = request.handle config ∨ prog = .pure (.error unauthorized)

/-- It comes no further while its token is refused. -/
theorem NoFurther.goes {authorization : Option String} {token : String} {resolvedAt now : Nat}
    {asked : Route} {statement : Statement} {next : statement.Reply → Handler Response}
    (hnofurther : NoFurther config (.route authorization resolvedAt now asked)
      (.act statement next)) (hbearer : bearer authorization = some token)
    (hrefuses : db.Refuses (config.tokenHash token) since) (hresolved : since ≤ resolvedAt) :
    NoFurther config (.route authorization resolvedAt now asked)
      (next (statement.run config db).1) := by
  rcases hnofurther with hcame | hrefused
  · rw [handle_route hbearer] at hcame
    obtain ⟨rfl, hrest⟩ := Prog.act.inj hcame
    obtain rfl := eq_of_heq hrest
    have hnone : ((Statement.session (config.tokenHash token) resolvedAt).run config db).1 = none :=
      hrefuses.session config hresolved
    exact Or.inr (by rw [hnone])
  · cases hrefused

/-- Once a token has ended, every request that shows it later is answered 401 and
has done nothing else, whatever other requests do before and meanwhile. -/
theorem ended_token_is_refused (config : RouteConfig) {tokenHash : Bytes} {since : Nat}
    {state : Apart.State Statement Statement.Reply Db Response} {ending : Nat}
    {statement : Statement} {next : statement.Reply → Handler Response}
    (hstate : state.progs ending = some (.act statement next))
    (hends : statement.Ends tokenHash since state.world)
    (hprogs : state.Abides (fun _ statement => ¬statement.Mints tokenHash) fun _ _ => True)
    {events later : List (Apart.Event Incoming Outside)}
    (hfresh : ∀ id userId email device sessionId token now,
      .arrive id (.signIn userId email device sessionId token now) ∈ events ++ later →
        config.tokenHash token ≠ tokenHash)
    {id : Nat} {authorization : Option String} {token : String} {resolvedAt now : Nat}
    {asked : Route} (hbearer : bearer authorization = some token)
    (htoken : config.tokenHash token = tokenHash) (hresolved : since ≤ resolvedAt)
    (hnew : (Apart.run (serving config) (.step ending :: events) state).progs id = none) :
    let request : Incoming := .route authorization resolvedAt now asked
    let after := Apart.run (serving config) (.step ending :: events ++ .arrive id request :: later)
      state
    after.progs id = some (request.handle config) ∨
      after.progs id = some (.pure (.error unauthorized)) := by
  intro request after
  have hkeeps := serving_keeps_refusal config tokenHash since
  have harrives : ∀ part : List (Apart.Event Incoming Outside),
      (∀ event ∈ part, event ∈ events ++ later) →
      Apart.Arrives (serving config) (fun _ statement => ¬statement.Mints tokenHash)
        (fun _ _ => True) part := by
    intro part hsub id incoming hmem
    refine handle_mints fun userId email device sessionId token now hincoming => ?_
    exact hfresh id userId email device sessionId token now (hsub _ (hincoming ▸ hmem))
  -- the statement that ends the token
  have hstep : state.next (serving config) (.step ending) =
      ⟨(statement.run config state.world).2, Function.update state.progs ending
        (some (next (statement.run config state.world).1))⟩ :=
    Apart.State.next_step (serving config) hstate
  have hends' : (state.next (serving config) (.step ending)).world.Refuses tokenHash since :=
    hstep ▸ hends.refuses
  have hprogs' : (state.next (serving config) (.step ending)).Abides
      (fun _ statement => ¬statement.Mints tokenHash) fun _ _ => True :=
    hstep ▸ hprogs.update ((hprogs ending _ hstate).2 _ trivial)
  -- up to the arrival of the request
  obtain ⟨hbefore, habides⟩ := hkeeps.run hends' hprogs'
    (harrives events fun event hmem => List.mem_append_left _ hmem)
  -- the request arrives
  let before := Apart.run (serving config) (.step ending :: events) state
  have hnext : before.next (serving config) (.arrive id request) =
      ⟨before.world, Function.update before.progs id (some (request.handle config))⟩ :=
    Apart.State.next_arrive (serving config) hnew request
  have harrived : (before.next (serving config) (.arrive id request)).Abides
      (fun _ statement => ¬statement.Mints tokenHash) fun _ _ => True := by
    rw [hnext]
    refine habides.update (handle_mints fun userId email device sessionId token now hsign => ?_)
    simp [request] at hsign
  -- from then on it is as it came, or refused
  obtain ⟨prog, hprog, hnofurther⟩ := hkeeps.run_one (P := NoFurther config request)
    (fun statement next world hrefuses hnofurther =>
      hnofurther.goes hbearer (htoken.symm ▸ hrefuses) hresolved)
    (before.next (serving config) (.arrive id request)) (hnext ▸ hbefore) harrived
    ⟨request.handle config, by rw [hnext]; exact Function.update_self _ _ _, Or.inl rfl⟩
    (harrives later fun event hmem => List.mem_append_right _ hmem)
  have hafter : after = Apart.run (serving config) later
      (before.next (serving config) (.arrive id request)) :=
    Apart.run_append _ (.step ending :: events) (.arrive id request :: later) state
  rw [hafter, hprog]
  exact hnofurther.imp (congrArg some) (congrArg some)

/-! ## A device that signed out -/

/-- `bob` is about to sign his `mac` out. -/
def signingOut : Apart.State Statement Statement.Reply Db Response :=
  Apart.run (serving sampleRoutes) [.arrive 2 (sampleIncoming 2), .step 2] (.idle sampleDb)

theorem signingOut_abides (tokenHash : Bytes) :
    signingOut.Abides (fun _ statement => ¬statement.Mints tokenHash) fun _ _ => True := by
  have hkeeps : Apart.Keeps (serving sampleRoutes) (fun _ => True)
      (fun _ statement => ¬statement.Mints tokenHash) fun _ _ => True :=
    ⟨fun _ _ _ _ _ => ⟨trivial, trivial⟩, fun _ _ _ => trivial⟩
  refine (hkeeps.run trivial Apart.State.all_idle ?_).2
  intro id incoming hmem
  simp only [List.mem_cons, Apart.Event.arrive.injEq, reduceCtorEq, List.not_mem_nil,
    or_false] at hmem
  obtain ⟨rfl, rfl⟩ := hmem
  change Prog.Abides _ _ _ ((sampleIncoming 2).handle sampleRoutes)
  refine handle_mints fun userId email device sessionId token now hsign => ?_
  cases hsign

/-- His token is refused from then on, also while `ann` reads her manifest. -/
theorem signed_out_is_refused_in_sample :
    let asking : Incoming := .route (some "Bearer os_bob") 2 2 .me
    let after := Apart.run (serving sampleRoutes)
      (.step 2 :: [.arrive 0 (sampleIncoming 0), .step 0] ++ .arrive 3 asking :: [.step 0, .step 3])
      signingOut
    after.progs 3 = some (.pure (.error unauthorized)) ∧
      (after.progs 3 = some (asking.handle sampleRoutes) ∨
        after.progs 3 = some (.pure (.error unauthorized))) := by
  refine ⟨rfl, ?_⟩
  have hends : Statement.Ends (sampleRoutes.tokenHash "os_bob") 0 signingOut.world
      (.deleteDevice "bob" "mac") :=
    show ∀ row ∈ sampleDb.sessions, row.tokenHash = sampleRoutes.tokenHash "os_bob" →
      row.isOf "bob" "mac" = true by decide
  have hbearer : bearer (some "Bearer os_bob") = some "os_bob" := by decide
  refine ended_token_is_refused sampleRoutes rfl hends (signingOut_abides _) ?_ hbearer rfl
    (Nat.zero_le 2) rfl
  simp [sampleIncoming]

end ObSink.Server.Tables
