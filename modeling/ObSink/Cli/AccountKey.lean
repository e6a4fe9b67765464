import ObSink.Cli.Unlock

/-! # One account key for life

The server takes the first passphrase only, and later ones only from a holder
of the key; a device keeps no key but the one the stored blob opens to. So,
over every interleaving of the flows, an account has one key.
-/

namespace ObSink.Cli

open Server.Account

variable {Byte : Type} (prim : Primitives Byte) (userId : String)

/-- A key and an id are the account's. -/
def Known (keys : KeyColumns Byte) (key : KeyBytes Byte) (keyId : String) : Prop :=
  keys.verifier = some (prim.accountVerifier key userId).1 ∧ keys.id = some keyId

/-- Key material that some passphrase was turned into. -/
def Wraps (key : KeyBytes Byte) (passphrase : String) (material : AccountKeyMaterial Byte) : Prop :=
  ∃ salt nonce, prim.wrapUnderPassphrase key passphrase userId salt nonce = .ok material

/-- A blob the server gave out: the account's key under some passphrase. -/
def IsBlob (keys : KeyColumns Byte) (blob : AccountKeyBlob Byte) : Prop :=
  ∃ key passphrase material, Known prim userId keys key blob.keyId ∧
    Wraps prim userId key passphrase material ∧
    blob.wrapped = material.wrapped ∧ blob.salt = material.salt.1

/-- An answer to a poll, if it has a blob, has the account's key in it. -/
def Relays (keys : KeyColumns Byte) (deviceId : String)
    (answer : Option (ApprovalStatus Byte)) : Prop :=
  ∀ status ∈ answer, ∀ blob ∈ status.wrapped, keys.id = status.keyId ∧
    ∃ publicKey, WrappedTo prim userId keys deviceId publicKey blob

/-- What a flow holds is the account's, or a key that nobody has yet. -/
def Phase.Good (keys : KeyColumns Byte) (deviceId : String) : Phase Byte → Prop
  | .gotKeys _ blob | .toUnlock _ blob => ∀ found ∈ blob, IsBlob prim userId keys found
  | .setKeys _ passphrase key material => Wraps prim userId key passphrase material
  | .wasSet _ _ key (.created keyId) => Known prim userId keys key keyId
  | .wasSet _ _ _ (.exists blob) | .enter blob => IsBlob prim userId keys blob
  | .polled _ answer => Relays prim userId keys deviceId answer
  | .clear key keyId | .keep key keyId => Known prim userId keys key keyId
  | .change _ key => ∃ keyId, Known prim userId keys key keyId
  | .toChange _ key blob => (∃ keyId, Known prim userId keys key keyId) ∧
      ∀ found ∈ blob, IsBlob prim userId keys found
  | .rewrap passphrase material => ∃ key, Wraps prim userId key passphrase material
  | .getKeys _ | .register _ | .wait _ | .unlock _ => True

/-- The stored blob is the account's key under the last accepted passphrase. -/
def Stores (keys : KeyColumns Byte) (accepted : List String) : Prop :=
  keys = {} ∧ accepted = [] ∨
  ∃ key keyId passphrase material, Known prim userId keys key keyId ∧
    Wraps prim userId key passphrase material ∧ keys.enc = some material.wrapped ∧
    keys.salt = some material.salt.1 ∧ accepted.head? = some passphrase

variable {prim userId}

/-- Once there is a verifier, it and the key id stay. -/
def KeyColumns.Leads (keys keys' : KeyColumns Byte) : Prop :=
  ∀ verifier, keys.verifier = some verifier → keys'.verifier = some verifier ∧ keys'.id = keys.id

theorem KeyColumns.Leads.refl (keys : KeyColumns Byte) : KeyColumns.Leads keys keys :=
  fun _ hverifier => ⟨hverifier, rfl⟩

variable {keys keys' : KeyColumns Byte} {key : KeyBytes Byte} {keyId deviceId : String}
  {blob : AccountKeyBlob Byte} {phase : Phase Byte} {accepted : List String}

theorem Known.leads (h : Known prim userId keys key keyId) (hleads : KeyColumns.Leads keys keys') :
    Known prim userId keys' key keyId := by
  obtain ⟨hverifier, hid⟩ := hleads _ h.1
  exact ⟨hverifier, hid.trans h.2⟩

theorem IsBlob.leads (h : IsBlob prim userId keys blob) (hleads : KeyColumns.Leads keys keys') :
    IsBlob prim userId keys' blob := by
  obtain ⟨key, passphrase, material, hknown, hrest⟩ := h
  exact ⟨key, passphrase, material, hknown.leads hleads, hrest⟩

theorem Relays.leads {answer : Option (ApprovalStatus Byte)}
    (h : Relays prim userId keys deviceId answer) (hleads : KeyColumns.Leads keys keys') :
    Relays prim userId keys' deviceId answer := by
  intro status hstatus blob hblob
  obtain ⟨hid, publicKey, account, typed, seed, nonce, hverifier, happrove⟩ :=
    h status hstatus blob hblob
  obtain ⟨hkept, hsame⟩ := hleads _ hverifier
  exact ⟨hsame.trans hid, publicKey, account, typed, seed, nonce, hkept, happrove⟩

theorem Phase.Good.leads (h : phase.Good prim userId keys deviceId)
    (hleads : KeyColumns.Leads keys keys') : phase.Good prim userId keys' deviceId := by
  cases phase with
  | gotKeys _ found | toUnlock _ found =>
      intro blob hblob
      exact (h blob hblob).leads hleads
  | wasSet _ _ _ outcome =>
      cases outcome with
      | created _ => exact Known.leads h hleads
      | «exists» _ => exact IsBlob.leads h hleads
  | enter _ => exact IsBlob.leads h hleads
  | polled _ _ => exact Relays.leads h hleads
  | clear _ _ | keep _ _ => exact Known.leads h hleads
  | change _ _ =>
      obtain ⟨keyId, hknown⟩ := h
      exact ⟨keyId, hknown.leads hleads⟩
  | toChange _ _ found =>
      obtain ⟨⟨keyId, hknown⟩, hfound⟩ := h
      exact ⟨⟨keyId, hknown.leads hleads⟩, fun blob hblob => (hfound blob hblob).leads hleads⟩
  | setKeys | rewrap => exact h
  | getKeys | register | wait | unlock => trivial

/-! ## What a blob opens to -/

theorem IsBlob.opens [DecidableEq Byte] (hideal : prim.Ideal) (h : IsBlob prim userId keys blob)
    {passphrase : String} (hunlock : unlockBlob prim userId blob passphrase = .ok key) :
    Known prim userId keys key blob.keyId := by
  obtain ⟨stored, known, material, hknown, ⟨salt, nonce, hwraps⟩, hwrapped, hsalt⟩ := h
  rw [unlockBlob, hwrapped, hsalt] at hunlock
  obtain ⟨-, rfl⟩ := hideal.unlockAccountKey_only hwraps hunlock
  exact hknown

theorem Relays.opens [DecidableEq Byte] (hideal : prim.Ideal)
    {answer : Option (ApprovalStatus Byte)} (h : Relays prim userId keys deviceId answer)
    {request : ApprovalRequest Byte}
    (htake : takeApprovedKey prim answer request userId deviceId = .ok (some (key, keyId))) :
    Known prim userId keys key keyId := by
  obtain ⟨status, blob, hanswer, hwrapped, hid, haccept⟩ := takeApprovedKey_ok htake
  obtain ⟨hsame, publicKey, account, typed, seed, nonce, hverifier, happrove⟩ :=
    h status hanswer blob hwrapped
  obtain rfl := hideal.acceptApproval_only happrove haccept
  exact ⟨hverifier, hsame.trans hid⟩

/-! ## One step of a flow -/

variable (prim userId) in
/-- A keychain entry is the account's. -/
def SavedGood (keys : KeyColumns Byte) (saved : Saved Byte) : Prop :=
  ∀ key keyId, saved = some (key, keyId) → Known prim userId keys key keyId

theorem SavedGood.forgotten : SavedGood prim userId keys none := by
  intro key keyId hnone
  cases hnone

theorem Known.saved (h : Known prim userId keys key keyId) :
    SavedGood prim userId keys (some (key, keyId)) := by
  intro key keyId hsame
  cases hsame
  exact h

variable (prim userId) in
/-- What a flow goes on with, and what it leaves in the keychain. -/
def Went (keys : KeyColumns Byte) (deviceId : String)
    (result : Option (Phase Byte) × Saved Byte) : Prop :=
  (∀ next ∈ result.1, next.Good prim userId keys deviceId) ∧ SavedGood prim userId keys result.2

theorem SavedGood.ends {saved : Saved Byte} (h : SavedGood prim userId keys saved) :
    Went prim userId keys deviceId (none, saved) := by
  refine ⟨?_, h⟩
  intro next hnext
  cases hnext

theorem SavedGood.goes {saved : Saved Byte} (h : SavedGood prim userId keys saved)
    (hphase : phase.Good prim userId keys deviceId) :
    Went prim userId keys deviceId (some phase, saved) := by
  refine ⟨?_, h⟩
  intro next hnext
  cases hnext
  exact hphase

variable {saved : Saved Byte} {input : Input Byte}

theorem withBlob_went (hsaved : SavedGood prim userId keys saved)
    (hblob : IsBlob prim userId keys blob) (usePassphrase : Bool) :
    Went prim userId keys deviceId (withBlob saved usePassphrase blob input) := by
  unfold withBlob
  split
  · exact hsaved.ends
  · apply SavedGood.forgotten.goes
    cases usePassphrase with
    | true => exact hblob
    | false => trivial

theorem saveUnlocked_went [DecidableEq Byte] (hideal : prim.Ideal)
    (hsaved : SavedGood prim userId keys saved) (hblob : IsBlob prim userId keys blob)
    (passphrase : String) :
    Went prim userId keys deviceId (saveUnlocked prim userId saved blob passphrase) := by
  unfold saveUnlocked
  split
  next key hunlock => exact (hblob.opens hideal hunlock).saved.ends
  next => exact hsaved.ends

theorem Phase.Good.go [DecidableEq Byte] (hideal : prim.Ideal)
    (h : phase.Good prim userId keys deviceId) (hsaved : SavedGood prim userId keys saved)
    {result : Option (Phase Byte) × Saved Byte}
    (hgo : phase.go prim userId deviceId saved input = some result) :
    Went prim userId keys deviceId result := by
  cases phase with
  | gotKeys usePassphrase found =>
      cases found with
      | none =>
          simp only [Phase.go] at hgo
          split at hgo
          next =>
            obtain rfl := Option.some.inj hgo
            exact hsaved.ends
          next =>
            split at hgo <;> obtain rfl := Option.some.inj hgo
            next key material hcreate =>
              -- no key on the account: a new one, wrapped by the passphrase
              obtain ⟨rfl, hwraps⟩ := Primitives.createAccountKey_ok hcreate
              exact hsaved.goes ⟨_, _, hwraps⟩
            next => exact hsaved.ends
      | some blob =>
          obtain rfl := Option.some.inj hgo
          exact withBlob_went hsaved (h blob rfl) usePassphrase
  | wasSet app passphrase key outcome =>
      cases outcome with
      | created keyId =>
          obtain rfl := Option.some.inj hgo
          exact SavedGood.ends (Known.saved h)
      -- another device was first: its blob counts, the own key is dropped
      | «exists» blob =>
          cases app with
          | true =>
              obtain rfl := Option.some.inj hgo
              exact saveUnlocked_went hideal hsaved h passphrase
          | false =>
              obtain rfl := Option.some.inj hgo
              exact withBlob_went hsaved h true
  | enter blob =>
      obtain rfl := Option.some.inj hgo
      exact saveUnlocked_went hideal hsaved h input.passphrase
  | polled secret answer =>
      simp only [Phase.go] at hgo
      split at hgo
      next =>
        obtain rfl := Option.some.inj hgo
        exact hsaved.goes trivial
      next status =>
        split at hgo <;> obtain rfl := Option.some.inj hgo
        next => exact hsaved.ends
        next => exact hsaved.goes trivial
        next key keyId htake => exact hsaved.goes (Relays.opens hideal h htake)
  | keep key keyId =>
      obtain rfl := Option.some.inj hgo
      exact SavedGood.ends (Known.saved h)
  | toUnlock passphrase found =>
      cases found with
      | none =>
          obtain rfl := Option.some.inj hgo
          exact hsaved.ends
      | some blob =>
          obtain rfl := Option.some.inj hgo
          exact saveUnlocked_went hideal hsaved (h blob rfl) passphrase
  | toChange compare key found =>
      cases found with
      | none =>
          obtain rfl := Option.some.inj hgo
          exact hsaved.ends
      | some blob =>
          simp only [Phase.go] at hgo
          split at hgo
          next =>
            obtain rfl := Option.some.inj hgo
            exact hsaved.ends
          next =>
            split at hgo
            next =>
              obtain rfl := Option.some.inj hgo
              exact hsaved.ends
            next =>
              split at hgo <;> obtain rfl := Option.some.inj hgo
              next material hwraps => exact hsaved.goes ⟨key, _, _, hwraps⟩
              next => exact hsaved.ends
  | getKeys | setKeys | register | wait | clear | unlock | change | rewrap => cases hgo

/-! ## One request -/

theorem Stores.current (h : Stores prim userId keys accepted) {rows : Rows Byte}
    (hkeys : rows.keys = keys) : ∀ blob ∈ rows.current, IsBlob prim userId keys blob := by
  intro blob hblob
  unfold Rows.current at hblob
  rw [hkeys] at hblob
  obtain ⟨rfl, -⟩ | ⟨key, keyId, passphrase, material, hknown, hwraps, henc, hsalt, -⟩ := h
  · cases hblob
  · simp only [henc, hsalt, hknown.2, Option.mem_def, Option.some.injEq] at hblob
    subst hblob
    exact ⟨key, passphrase, material, hknown, hwraps, rfl, rfl⟩

theorem leads_of_step [DecidableEq Byte] {server server' : Server.Account.World Byte}
    {event : Server.Account.Event Byte} (hsound : Sound prim userId server)
    (hstep : server.step prim userId event = some server') :
    KeyColumns.Leads server.rows.keys server'.rows.keys :=
  fun _ hverifier => World.step_verifier hsound.complete hstep hverifier

theorem materialBody_decode {material : AccountKeyMaterial Byte} {sent : Material Byte}
    (hdecode : (materialBody material).decode = .ok sent) :
    sent = ⟨material.wrapped, material.salt.1, material.verifier.1⟩ := by
  simp only [SetKeysBody.decode, materialBody, bind, Except.bind, pure, Except.pure] at hdecode
  split at hdecode
  next => cases hdecode
  next wrapped hwrapped =>
    split at hdecode
    next => cases hdecode
    next salt hsalt =>
      split at hdecode
      next => cases hdecode
      next verifier hverifier =>
        rw [BodyField.bytes.inj (decodeField_ok hwrapped),
          BodyField.bytes.inj (decodeField_ok hsalt),
          BodyField.bytes.inj (decodeField_ok hverifier)]
        exact (Except.ok.inj hdecode).symm

variable (prim userId) in
/-- What holds of the server's side and the flow after a request. -/
structure ServedGood (server : Server.Account.World Byte) (deviceId : String)
    (accepted : List String) (served : Served Byte) : Prop where
  sound : Sound prim userId { server with rows := served.rows }
  leads : KeyColumns.Leads server.rows.keys served.rows.keys
  phase : ∀ next ∈ served.phase, next.Good prim userId served.rows.keys deviceId
  stores : Stores prim userId served.rows.keys (served.accepted.toList ++ accepted)

section

variable [DecidableEq Byte] {server : Server.Account.World Byte}
  (hsound : Sound prim userId server) (hstores : Stores prim userId server.rows.keys accepted)

include hsound hstores

omit [DecidableEq Byte] in
/-- A request that only reads. -/
theorem ServedGood.read {next : Option (Phase Byte)}
    (hnext : ∀ phase ∈ next, phase.Good prim userId server.rows.keys deviceId) :
    ServedGood prim userId server deviceId accepted ⟨next, server.rows, none⟩ where
  sound := hsound
  leads := KeyColumns.Leads.refl _
  phase := hnext
  stores := hstores

/-- A request that leaves the account key alone. -/
theorem ServedGood.of_step {event : Server.Account.Event Byte} {rows : Rows Byte}
    (hstep : server.step prim userId event = some { server with rows := rows })
    (hkeys : rows.keys = server.rows.keys) {next : Option (Phase Byte)}
    (hnext : ∀ phase ∈ next, phase.Good prim userId server.rows.keys deviceId) :
    ServedGood prim userId server deviceId accepted ⟨next, rows, none⟩ where
  sound := hsound.step hstep
  leads := leads_of_step hsound hstep
  phase := by
    rw [hkeys]
    exact hnext
  stores := by
    rw [hkeys]
    exact hstores

theorem ServedGood.set {app : Bool} {passphrase newKeyId : String} {now : Nat}
    {material : AccountKeyMaterial Byte} {served : Served Byte}
    (hwraps : Wraps prim userId key passphrase material)
    (hserve : (Phase.setKeys app passphrase key material).serve prim deviceId newKeyId now
      server.rows = some served) : ServedGood prim userId server deviceId accepted served := by
  have hcurrent := hstores.current rfl
  simp only [Phase.serve] at hserve
  generalize hset : server.rows.set (materialBody material) newKeyId = result at hserve
  obtain ⟨answer, rows⟩ := result
  have hstep : server.step prim userId (.set (materialBody material) newKeyId) =
      some { server with rows := rows } := by
    rw [Server.Account.World.step, hset]
  obtain ⟨sent, hdecode, -, rfl, hrows⟩ | ⟨rfl, ⟨rfl, -⟩ | ⟨error, rfl⟩⟩ := Rows.set_cases hset
  · obtain rfl := Option.some.inj hserve
    obtain rfl := materialBody_decode hdecode
    have hknown : Known prim userId rows.keys key newKeyId := by
      obtain ⟨salt, nonce, hwraps⟩ := hwraps
      rw [hrows, Known, ← (Primitives.wrapUnderPassphrase_ok hwraps).2]
      exact ⟨rfl, rfl⟩
    constructor
    · exact hsound.step hstep
    · exact leads_of_step hsound hstep
    · rintro _ ⟨rfl⟩
      exact hknown
    · right
      exact ⟨key, newKeyId, passphrase, material, hknown, hwraps, by rw [hrows], by rw [hrows], rfl⟩
  · cases hblob : server.rows.current with
    | none =>
        rw [hblob] at hserve
        obtain rfl := Option.some.inj hserve
        apply ServedGood.read hsound hstores
        simp
    | some blob =>
        rw [hblob] at hserve
        obtain rfl := Option.some.inj hserve
        apply ServedGood.read hsound hstores
        rintro _ ⟨rfl⟩
        exact hcurrent blob hblob
  · obtain rfl := Option.some.inj hserve
    apply ServedGood.read hsound hstores
    simp

theorem ServedGood.rewrap {passphrase newKeyId : String} {now : Nat}
    {material : AccountKeyMaterial Byte} {served : Served Byte}
    (hwraps : Wraps prim userId key passphrase material)
    (hserve : (Phase.rewrap passphrase material).serve prim deviceId newKeyId now server.rows =
      some served) : ServedGood prim userId server deviceId accepted served := by
  simp only [Phase.serve] at hserve
  generalize hrewrap : server.rows.rewrap (materialBody material) = result at hserve
  obtain ⟨answer, rows⟩ := result
  have hstep : server.step prim userId (.rewrap (materialBody material)) =
      some { server with rows := rows } := by
    rw [Server.Account.World.step, hrewrap]
  obtain ⟨sent, hdecode, hverifier, rfl, hrows⟩ | ⟨rfl, error, rfl⟩ := Rows.rewrap_cases hrewrap
  · obtain rfl := Option.some.inj hserve
    obtain rfl := materialBody_decode hdecode
    constructor
    · exact hsound.step hstep
    · exact leads_of_step hsound hstep
    · simp
    · right
      obtain ⟨hempty, -⟩ | ⟨_, keyId, _, _, hknown, -⟩ := hstores
      · simp [hempty] at hverifier
      · -- the verifier that was shown is of the key that was wrapped
        have hshown : material.verifier = prim.accountVerifier key userId := by
          obtain ⟨salt, nonce, hwraps⟩ := hwraps
          exact (Primitives.wrapUnderPassphrase_ok hwraps).2
        refine ⟨key, keyId, passphrase, material, ⟨?_, ?_⟩, hwraps, by rw [hrows], by rw [hrows],
          rfl⟩
        · rw [hrows, ← hshown]
          exact hverifier
        · rw [hrows]
          exact hknown.2
  · obtain rfl := Option.some.inj hserve
    apply ServedGood.read hsound hstores
    simp

end

/-- What the server holds fits the flow that asked, and the passphrase it took. -/
theorem Phase.Good.serve [DecidableEq Byte] {server : Server.Account.World Byte}
    (h : phase.Good prim userId server.rows.keys deviceId)
    (hsound : Sound prim userId server)
    (hstores : Stores prim userId server.rows.keys accepted) {newKeyId : String} {now : Nat}
    {served : Served Byte}
    (hserve : phase.serve prim deviceId newKeyId now server.rows = some served) :
    ServedGood prim userId server deviceId accepted served := by
  have hcurrent := hstores.current rfl
  cases phase with
  | getKeys usePassphrase =>
      obtain rfl := Option.some.inj hserve
      apply ServedGood.read hsound hstores
      rintro _ ⟨rfl⟩
      exact hcurrent
  | unlock passphrase =>
      obtain rfl := Option.some.inj hserve
      apply ServedGood.read hsound hstores
      rintro _ ⟨rfl⟩
      exact hcurrent
  | change compare key =>
      obtain rfl := Option.some.inj hserve
      apply ServedGood.read hsound hstores
      rintro _ ⟨rfl⟩
      exact ⟨h, hcurrent⟩
  | setKeys app passphrase key material => exact ServedGood.set hsound hstores h hserve
  | rewrap passphrase material =>
      obtain ⟨key, hwraps⟩ := h
      exact ServedGood.rewrap hsound hstores hwraps hserve
  | register secret =>
      simp only [Phase.serve] at hserve
      generalize hregister : server.rows.register deviceId (.bytes (prim.publicKey secret).1) now =
        result at hserve
      obtain ⟨answer, rows⟩ := result
      have hstep : server.step prim userId
          (.register deviceId (.bytes (prim.publicKey secret).1) now) =
          some { server with rows := rows } := by
        rw [Server.Account.World.step, hregister]
      have hkeys : rows.keys = server.rows.keys := by
        obtain ⟨_, _, -, -, rfl⟩ | rfl := Rows.register_cases hregister <;> rfl
      cases answer with
      | ok registered =>
          obtain rfl := Option.some.inj hserve
          apply ServedGood.of_step hsound hstores hstep hkeys
          rintro _ ⟨rfl⟩
          trivial
      | error error =>
          obtain rfl := Option.some.inj hserve
          apply ServedGood.of_step hsound hstores hstep hkeys
          simp
  | wait secret =>
      simp only [Phase.serve] at hserve
      split at hserve
      next answer hpoll =>
        obtain rfl := Option.some.inj hserve
        apply ServedGood.read hsound hstores
        rintro _ ⟨rfl⟩
        -- what a poll hands over was relayed for the key of the account
        intro status hstatus blob hblob
        rw [hstatus] at hpoll
        obtain ⟨columns, hcolumns, -, hwrapped, hid⟩ := Rows.poll_ok hpoll
        refine ⟨?_, hsound.relayed deviceId columns blob hcolumns (hwrapped.trans hblob)⟩
        rw [hid, hblob, Option.bind_some]
      next =>
        obtain rfl := Option.some.inj hserve
        apply ServedGood.read hsound hstores
        simp
  | clear key keyId =>
      obtain rfl := Option.some.inj hserve
      have hstep : server.step prim userId (.cancel deviceId) =
          some { server with rows := server.rows.cancel deviceId } := rfl
      apply ServedGood.of_step hsound hstores hstep rfl
      rintro _ ⟨rfl⟩
      exact h
  | gotKeys | wasSet | enter | polled | keep | toUnlock | toChange => cases hserve

/-! ## Every run -/

variable (prim userId) in
/-- Everything in a world is about one account key. -/
structure Unified (w : World Byte) : Prop where
  sound : Sound prim userId w.server
  stores : Stores prim userId w.server.rows.keys w.accepted
  saved : ∀ deviceId, SavedGood prim userId w.server.rows.keys (w.saved deviceId)
  flows : ∀ id flow, w.flows id = some flow →
    flow.phase.Good prim userId w.server.rows.keys flow.deviceId
  vaultKeys : ∀ vaultKey ∈ w.vaultKeys, ∃ key keyId nonce,
    Known prim userId w.server.rows.keys key keyId ∧
      vaultKey.wrapped = prim.wrapVaultKey key vaultKey.key vaultKey.vaultId nonce

namespace Unified

theorem start : Unified prim userId .start := by
  constructor
  · exact Sound.start
  · exact Or.inl ⟨rfl, rfl⟩
  · intro deviceId
    exact SavedGood.forgotten
  · simp [World.start]
  · simp [World.start]

/-- A flow goes on, and the rest of the world keeps up. -/
theorem update {w : World Byte} (h : Unified prim userId w) {w' : World Byte}
    (hsound : Sound prim userId w'.server)
    (hleads : KeyColumns.Leads w.server.rows.keys w'.server.rows.keys)
    (hstores : Stores prim userId w'.server.rows.keys w'.accepted)
    (hsaved : ∀ deviceId, w'.saved deviceId = w.saved deviceId ∨
      SavedGood prim userId w'.server.rows.keys (w'.saved deviceId))
    (hflows : ∀ id flow, w'.flows id = some flow → w.flows id = some flow ∨
      flow.phase.Good prim userId w'.server.rows.keys flow.deviceId)
    (hvaultKeys : ∀ vaultKey ∈ w'.vaultKeys, vaultKey ∈ w.vaultKeys ∨ ∃ key keyId nonce,
      Known prim userId w'.server.rows.keys key keyId ∧
        vaultKey.wrapped = prim.wrapVaultKey key vaultKey.key vaultKey.vaultId nonce) :
    Unified prim userId w' := by
  constructor
  · exact hsound
  · exact hstores
  · intro deviceId
    obtain hsame | hgood := hsaved deviceId
    · rw [hsame]
      intro key keyId hentry
      exact (h.saved deviceId key keyId hentry).leads hleads
    · exact hgood
  · intro id flow hflow
    obtain hsame | hgood := hflows id flow hflow
    · exact (h.flows id flow hsame).leads hleads
    · exact hgood
  · intro vaultKey hmem
    obtain hsame | hgood := hvaultKeys vaultKey hmem
    · obtain ⟨key, keyId, nonce, hknown, hwrapped⟩ := h.vaultKeys vaultKey hsame
      exact ⟨key, keyId, nonce, hknown.leads hleads, hwrapped⟩
    · exact hgood

theorem startFlow {w w' : World Byte} (h : Unified prim userId w) {id : Nat} {deviceId : String}
    {phase : Phase Byte} (hstart : w.startFlow id deviceId phase = some w')
    (hphase : phase.Good prim userId w.server.rows.keys deviceId) : Unified prim userId w' := by
  unfold World.startFlow at hstart
  split at hstart
  next => cases hstart
  next =>
    obtain rfl := Option.some.inj hstart
    refine h.update h.sound (KeyColumns.Leads.refl _) h.stores ?_ ?_ ?_
    · exact fun _ => Or.inl rfl
    · intro other flow hflow
      by_cases hother : other = id
      · right
        simp only [hother, Function.update_self, Option.some.injEq] at hflow
        exact hflow ▸ hphase
      · left
        simpa only [Function.update_of_ne hother] using hflow
    · exact fun _ hmem => Or.inl hmem

variable [DecidableEq Byte] {w w' : World Byte}

theorem account (h : Unified prim userId w) {event : Server.Account.Event Byte}
    {server : Server.Account.World Byte} (hallows : w.allows event = true)
    (hstep : w.server.step prim userId event = some server) :
    Unified prim userId { w with server := server } := by
  have hkeys : server.rows.keys = w.server.rows.keys := by
    obtain hsame | ⟨_, _, _, rfl, -⟩ | ⟨_, _, rfl, -⟩ := World.step_keys hstep
    · exact hsame
    · cases hallows
    · cases hallows
  refine h.update (h.sound.step hstep) (leads_of_step h.sound hstep) ?_ ?_ ?_ ?_
  · rw [hkeys]
    exact h.stores
  · exact fun _ => Or.inl rfl
  · exact fun _ _ hflow => Or.inl hflow
  · exact fun _ hmem => Or.inl hmem

theorem serve (h : Unified prim userId w) {id : Nat} {flow : Flow Byte} {served : Served Byte}
    {keyId : String} {now : Nat} (hflow : w.flows id = some flow)
    (hserve : flow.phase.serve prim flow.deviceId keyId now w.server.rows = some served) :
    Unified prim userId { w with
      server := { w.server with rows := served.rows }
      flows := Function.update w.flows id (served.phase.map (⟨flow.deviceId, ·⟩))
      accepted := served.accepted.toList ++ w.accepted } := by
  have hserved := (h.flows id flow hflow).serve h.sound h.stores hserve
  refine h.update hserved.sound hserved.leads hserved.stores ?_ ?_ ?_
  · exact fun _ => Or.inl rfl
  · intro other next hnext
    by_cases hother : other = id
    · right
      simp only [hother, Function.update_self, Option.map_eq_some_iff] at hnext
      obtain ⟨phase, hphase, rfl⟩ := hnext
      exact hserved.phase phase hphase
    · left
      simpa only [Function.update_of_ne hother] using hnext
  · exact fun _ hmem => Or.inl hmem

theorem go (hideal : prim.Ideal) (h : Unified prim userId w) {id : Nat} {flow : Flow Byte}
    {input : Input Byte} {phase : Option (Phase Byte)} {saved : Saved Byte}
    (hflow : w.flows id = some flow)
    (hgo : flow.phase.go prim userId flow.deviceId (w.saved flow.deviceId) input =
      some (phase, saved)) :
    Unified prim userId { w with
      saved := Function.update w.saved flow.deviceId saved
      flows := Function.update w.flows id (phase.map (⟨flow.deviceId, ·⟩)) } := by
  have hwent := (h.flows id flow hflow).go hideal (h.saved flow.deviceId) hgo
  refine h.update h.sound (KeyColumns.Leads.refl _) h.stores ?_ ?_ ?_
  · intro deviceId
    by_cases hdevice : deviceId = flow.deviceId
    · right
      simp only [hdevice, Function.update_self]
      exact hwent.2
    · left
      simp only [Function.update_of_ne hdevice]
  · intro other next hnext
    by_cases hother : other = id
    · right
      simp only [hother, Function.update_self, Option.map_eq_some_iff] at hnext
      obtain ⟨phase', hphase, rfl⟩ := hnext
      exact hwent.1 phase' hphase
    · left
      simpa only [Function.update_of_ne hother] using hnext
  · exact fun _ hmem => Or.inl hmem

theorem step (hideal : prim.Ideal) (h : Unified prim userId w) {event : Event Byte}
    (hstep : w.step prim userId event = some w') : Unified prim userId w' := by
  cases event with
  | unlockAccount | unlock => exact h.startFlow hstep trivial
  | setPassphrase id deviceId input =>
      simp only [World.step] at hstep
      split at hstep
      next => cases hstep
      next =>
        split at hstep
        next => cases hstep
        next key material hcreate =>
          obtain ⟨rfl, hwraps⟩ := Primitives.createAccountKey_ok hcreate
          exact h.startFlow hstep ⟨_, _, hwraps⟩
  | changePassphrase id deviceId compare =>
      simp only [World.step] at hstep
      split at hstep
      next => cases hstep
      next key keyId hsaved => exact h.startFlow hstep ⟨keyId, h.saved deviceId key keyId hsaved⟩
  | serve id keyId now =>
      simp only [World.step] at hstep
      split at hstep
      next => cases hstep
      next flow hflow =>
        split at hstep
        next => cases hstep
        next served hserve =>
          obtain rfl := Option.some.inj hstep
          exact h.serve hflow hserve
  | go id input =>
      simp only [World.step] at hstep
      split at hstep
      next => cases hstep
      next flow hflow =>
        split at hstep
        next => cases hstep
        next phase saved hgo =>
          obtain rfl := Option.some.inj hstep
          exact h.go hideal hflow hgo
  | drop id =>
      obtain rfl := Option.some.inj hstep
      refine h.update h.sound (KeyColumns.Leads.refl _) h.stores ?_ ?_ ?_
      · exact fun _ => Or.inl rfl
      · intro other flow hflow
        left
        by_cases hother : other = id
        · simp [hother] at hflow
        · simpa only [Function.update_of_ne hother] using hflow
      · exact fun _ hmem => Or.inl hmem
  | forget deviceId =>
      obtain rfl := Option.some.inj hstep
      refine h.update h.sound (KeyColumns.Leads.refl _) h.stores ?_ ?_ ?_
      · intro other
        by_cases hother : other = deviceId
        · right
          simp only [hother, Function.update_self]
          exact SavedGood.forgotten
        · left
          simp only [Function.update_of_ne hother]
      · exact fun _ _ hflow => Or.inl hflow
      · exact fun _ hmem => Or.inl hmem
  | wrapVaultKey deviceId vaultId key nonce =>
      simp only [World.step] at hstep
      split at hstep
      next => cases hstep
      next account keyId hsaved =>
        obtain rfl := Option.some.inj hstep
        refine h.update h.sound (KeyColumns.Leads.refl _) h.stores ?_ ?_ ?_
        · exact fun _ => Or.inl rfl
        · exact fun _ _ hflow => Or.inl hflow
        · intro vaultKey hmem
          obtain rfl | hold := List.mem_cons.mp hmem
          · exact Or.inr ⟨account, keyId, nonce, h.saved deviceId account keyId hsaved, rfl⟩
          · exact Or.inl hold
  | account event =>
      simp only [World.step] at hstep
      split at hstep
      next hallows =>
        obtain ⟨server, hserver, rfl⟩ := Option.map_eq_some_iff.mp hstep
        exact h.account hallows hserver
      next => cases hstep

/-- The account's key stays what it is. -/
theorem step_leads (h : Unified prim userId w) {event : Event Byte}
    (hstep : w.step prim userId event = some w') :
    KeyColumns.Leads w.server.rows.keys w'.server.rows.keys := by
  cases event with
  | serve id keyId now =>
      simp only [World.step] at hstep
      split at hstep
      next => cases hstep
      next flow hflow =>
        split at hstep
        next => cases hstep
        next served hserve =>
          obtain rfl := Option.some.inj hstep
          exact ((h.flows id flow hflow).serve h.sound h.stores hserve).leads
  | account event =>
      simp only [World.step] at hstep
      split at hstep
      next =>
        obtain ⟨server, hserver, rfl⟩ := Option.map_eq_some_iff.mp hstep
        exact leads_of_step h.sound hserver
      next => cases hstep
  | unlockAccount | setPassphrase | unlock | changePassphrase | go | drop | forget |
    wrapVaultKey =>
      have hserver : w'.server = w.server := by
        simp only [World.step, World.startFlow] at hstep
        grind
      rw [hserver]
      exact KeyColumns.Leads.refl _

end Unified

variable [DecidableEq Byte] {w : World Byte}

omit [DecidableEq Byte] in
theorem Known.unique (hideal : prim.Ideal) {other : KeyBytes Byte} {otherId : String}
    (h : Known prim userId keys key keyId) (hother : Known prim userId keys other otherId) :
    other = key ∧ otherId = keyId := by
  have hverifier := Option.some.inj (hother.1.symm.trans h.1)
  have hid := Option.some.inj (hother.2.symm.trans h.2)
  exact ⟨hideal.accountVerifier_inj (Subtype.ext hverifier), hid⟩

/-- From the first accepted passphrase on there is one account key: its
verifier stays, the stored blob opens to it under the passphrase accepted last
and no other, every keychain has it or nothing, and it opens every vault key a
device has wrapped. -/
theorem one_account_key (hideal : prim.Ideal)
    (h : Runs.Reaches (World.step prim userId) Runs.anything .start w) (hset : w.accepted ≠ []) :
    ∃ key keyId, ∀ w', Runs.Reaches (World.step prim userId) Runs.anything w w' →
      w'.server.rows.keys.verifier = some (prim.accountVerifier key userId).1 ∧
      (∃ blob passphrase, w'.server.rows.current = some blob ∧ blob.keyId = keyId ∧
        w'.accepted.head? = some passphrase ∧ unlockBlob prim userId blob passphrase = .ok key ∧
        ∀ other, other ≠ passphrase → ∀ opened, unlockBlob prim userId blob other ≠ .ok opened) ∧
      (∀ deviceId, w'.saved deviceId = none ∨ w'.saved deviceId = some (key, keyId)) ∧
      (∀ vaultKey ∈ w'.vaultKeys,
        prim.unwrapVaultKey key vaultKey.wrapped vaultKey.vaultId = .ok vaultKey.key) := by
  have hunified : Unified prim userId w :=
    h.invariant Unified.start (fun _ _ _ hbefore _ hstep => hbefore.step hideal hstep)
  obtain ⟨-, hnone⟩ | ⟨key, keyId, _, _, hknown, -⟩ := hunified.stores
  · exact absurd hnone hset
  refine ⟨key, keyId, ?_⟩
  intro w' hrun
  have hboth : Unified prim userId w' ∧ Known prim userId w'.server.rows.keys key keyId := by
    apply hrun.invariant ⟨hunified, hknown⟩
    intro before event after hbefore _ hstep
    exact ⟨hbefore.1.step hideal hstep, hbefore.2.leads (hbefore.1.step_leads hstep)⟩
  obtain ⟨hunified', hknown'⟩ := hboth
  refine ⟨hknown'.1, ?_, ?_, ?_⟩
  · obtain ⟨hempty, -⟩ | ⟨stored, storedId, passphrase, material, hstored, ⟨salt, nonce, hwraps⟩,
      henc, hsalt, hlast⟩ := hunified'.stores
    · rw [hempty] at hknown'
      cases hknown'.1
    · obtain ⟨rfl, rfl⟩ := hknown'.unique hideal hstored
      refine ⟨⟨storedId, material.wrapped, material.salt.1⟩, passphrase, ?_, rfl, hlast, ?_, ?_⟩
      · simp [Rows.current, henc, hsalt, hstored.2]
      · exact hideal.unlockAccountKey_wrapped hwraps
      · intro other hother opened hopens
        exact hother (hideal.unlockAccountKey_only hwraps hopens).1
  · intro deviceId
    cases hsaved : w'.saved deviceId with
    | none => exact Or.inl rfl
    | some entry =>
        obtain ⟨rfl, rfl⟩ :=
          hknown'.unique hideal (hunified'.saved deviceId entry.1 entry.2 hsaved)
        exact Or.inr rfl
  · intro vaultKey hmem
    obtain ⟨wrapping, wrappingId, nonce, hwrapping, hwrapped⟩ := hunified'.vaultKeys vaultKey hmem
    obtain ⟨rfl, -⟩ := hknown'.unique hideal hwrapping
    rw [hwrapped]
    exact hideal.unwrapVaultKey_wrapVaultKey _ _ _ _

theorem length_zero_nonce : (Term.zeros 12).length = 12 := rfl

/-- What the user types, and a key, on one device. -/
def sampleInput (passphrase : String) (n : Nat) : Input Term where
  passphrase := passphrase
  next := passphrase
  account := Term.key (.byte n)
  salt := ⟨Term.zeros 16, rfl⟩
  nonce := ⟨Term.zeros 12, length_zero_nonce⟩
  secret := Term.key (.byte n)

/-- Two devices set the first passphrase at once, and the loser enters the
winner's. -/
def race : List (Event Term) :=
  [.unlockAccount 0 "mac" false, .unlockAccount 1 "phone" false, .serve 0 "" 0, .serve 1 "" 0,
    .go 0 (sampleInput "correct horse" 1), .go 1 (sampleInput "battery staple" 2),
    .serve 0 "key_1" 1, .serve 1 "key_2" 1, .go 0 (sampleInput "" 3), .go 1 (sampleInput "" 4),
    .go 1 (sampleInput "correct horse" 5)]

theorem race_has_one_key : ∃ w : World Term,
    Runs.Reaches (World.step symbolic "user") Runs.anything .start w ∧
    w.accepted = ["correct horse"] ∧ (w.saved "phone").isSome = true ∧
    ∃ key keyId, w.server.rows.keys.verifier = some (symbolic.accountVerifier key "user").1 ∧
      ∀ deviceId, w.saved deviceId = none ∨ w.saved deviceId = some (key, keyId) := by
  have hrun : (Runs.run (World.step symbolic "user") (fun _ _ => true) .start race).map
      (fun w => (w.accepted, (w.saved "phone").isSome)) = some (["correct horse"], true) := by
    decide +kernel
  obtain ⟨w, hw, hsame⟩ := Option.map_eq_some_iff.mp hrun
  obtain ⟨haccepted, hsaved⟩ := Prod.mk.inj hsame
  have hreach : Runs.Reaches (World.step symbolic "user") Runs.anything .start w :=
    Runs.Reaches.start.run (fun _ _ _ => trivial) hw
  obtain ⟨key, keyId, hkey⟩ := one_account_key symbolic_ideal hreach (by simp [haccepted])
  obtain ⟨hverifier, -, hdevices, -⟩ := hkey w .start
  exact ⟨w, hreach, haccepted, hsaved, key, keyId, hverifier, hdevices⟩

end ObSink.Cli
