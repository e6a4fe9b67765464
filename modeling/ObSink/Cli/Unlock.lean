import ObSink.Server.Approvals

/-! # Setting, entering and changing the passphrase

The flows of a device around the account key: `unlock_account` and
`run_passphrase` (`cli/src/main.rs`), and `set_passphrase`, `unlock` and
`change_passphrase` of the apps (`desktop/src-tauri/src/main.rs`,
`mobile/src/lib.rs`, `web/src/worker/account.ts`). A flow alternates requests,
which the server answers at some later time, and steps of its own. The web app
keeps the key without its id; here it is kept with it.
-/

namespace ObSink.Cli

open Server.Account

variable {Byte : Type}

def minPassphraseChars : Nat := 12

/-- What `PUT /auth/keys` answered. -/
inductive SetKeysOutcome (Byte : Type) where
  | created (keyId : String)
  | exists (blob : AccountKeyBlob Byte)

/-- Where a flow is: a request is under way, or its answer is there. -/
inductive Phase (Byte : Type) where
  /-- `unlock_account` asks for the stored blob. -/
  | getKeys (usePassphrase : Bool)
  | gotKeys (usePassphrase : Bool) (blob : Option (AccountKeyBlob Byte))
  /-- `PUT /auth/keys`, from `unlock_account` or from an app. -/
  | setKeys (app : Bool) (passphrase : String) (key : KeyBytes Byte)
      (material : AccountKeyMaterial Byte)
  | wasSet (app : Bool) (passphrase : String) (key : KeyBytes Byte)
      (outcome : SetKeysOutcome Byte)
  /-- `unlock_account` asks for the passphrase. -/
  | enter (blob : AccountKeyBlob Byte)
  /-- `wait_for_approval` registers, polls, and withdraws the request. -/
  | register (secret : KeyBytes Byte)
  | wait (secret : KeyBytes Byte)
  | polled (secret : KeyBytes Byte) (answer : Option (ApprovalStatus Byte))
  | clear (key : KeyBytes Byte) (keyId : String)
  | keep (key : KeyBytes Byte) (keyId : String)
  /-- `unlock` of the apps. -/
  | unlock (passphrase : String)
  | toUnlock (passphrase : String) (blob : Option (AccountKeyBlob Byte))
  /-- `run_passphrase` and `change_passphrase`; the web app does not compare the
  stored key with its own. -/
  | change (compare : Bool) (key : KeyBytes Byte)
  | toChange (compare : Bool) (key : KeyBytes Byte) (blob : Option (AccountKeyBlob Byte))
  | rewrap (passphrase : String) (material : AccountKeyMaterial Byte)

/-- What a user types and what a device draws at random. -/
structure Input (Byte : Type) where
  passphrase : String
  next : String
  account : KeyBytes Byte
  salt : Sized Byte saltLen
  nonce : Sized Byte Aead.nonceLen
  secret : KeyBytes Byte

/-- `material_json` -/
def materialBody (material : AccountKeyMaterial Byte) : SetKeysBody Byte where
  wrapped := .bytes material.wrapped
  salt := .bytes material.salt.1
  verifier := .bytes material.verifier.1

section

variable [DecidableEq Byte] (prim : Primitives Byte) (userId : String)

/-- `AccountKeyBlob::unlock` -/
def unlockBlob (blob : AccountKeyBlob Byte) (passphrase : String) :
    Except CryptoError (KeyBytes Byte) :=
  prim.unlockAccountKey passphrase blob.salt blob.wrapped userId

/-- The result of a request: the flow goes on or ends, the rows of the account,
and the passphrase the server has taken. -/
structure Served (Byte : Type) where
  phase : Option (Phase Byte)
  rows : Rows Byte
  accepted : Option String := none

/-- The server answers the request of a flow. -/
def Phase.serve (deviceId keyId : String) (now : Nat) (rows : Rows Byte) :
    Phase Byte → Option (Served Byte)
  | .getKeys usePassphrase => some ⟨some (.gotKeys usePassphrase rows.current), rows, none⟩
  | .setKeys app passphrase key material =>
      match rows.set (materialBody material) keyId with
      | (.ok (.created keyId), rows) =>
          some ⟨some (.wasSet app passphrase key (.created keyId)), rows, some passphrase⟩
      | (.ok (.conflict (some blob)), rows) =>
          some ⟨some (.wasSet app passphrase key (.exists blob)), rows, none⟩
      | (_, rows) => some ⟨none, rows, none⟩
  | .register secret =>
      match rows.register deviceId (.bytes (prim.publicKey secret).1) now with
      | (.ok _, rows) => some ⟨some (.wait secret), rows, none⟩
      | (.error _, rows) => some ⟨none, rows, none⟩
  | .wait secret =>
      match rows.poll deviceId now with
      | .ok answer => some ⟨some (.polled secret answer), rows, none⟩
      | .error _ => some ⟨none, rows, none⟩
  | .clear key keyId => some ⟨some (.keep key keyId), rows.cancel deviceId, none⟩
  | .unlock passphrase => some ⟨some (.toUnlock passphrase rows.current), rows, none⟩
  | .change compare key => some ⟨some (.toChange compare key rows.current), rows, none⟩
  | .rewrap passphrase material =>
      match rows.rewrap (materialBody material) with
      | (.ok (), rows) => some ⟨none, rows, some passphrase⟩
      | (.error _, rows) => some ⟨none, rows, none⟩
  | _ => none

/-- The keychain entry of an account: its key and the key's id. -/
abbrev Saved (Byte : Type) := Option (KeyBytes Byte × String)

/-- `unlock_account`, once it holds the stored blob. -/
def withBlob (saved : Saved Byte) (usePassphrase : Bool) (blob : AccountKeyBlob Byte)
    (input : Input Byte) : Option (Phase Byte) × Saved Byte :=
  if saved.any (·.2 = blob.keyId) then (none, saved)
  else
    -- a key from a lost first-set race is not the account's
    (some (if usePassphrase then .enter blob else .register input.secret), none)

/-- A flow keeps the key it unlocked, or ends. -/
def saveUnlocked (saved : Saved Byte) (blob : AccountKeyBlob Byte) (passphrase : String) :
    Option (Phase Byte) × Saved Byte :=
  match unlockBlob prim userId blob passphrase with
  | .ok key => (none, some (key, blob.keyId))
  | .error _ => (none, saved)

/-- The next step of a flow on the answer it has; the second part is the
device's keychain entry after it. -/
def Phase.go (deviceId : String) (saved : Saved Byte) (input : Input Byte) :
    Phase Byte → Option (Option (Phase Byte) × Saved Byte)
  | .gotKeys _ none =>
      if input.passphrase.length < minPassphraseChars then some (none, saved)
      else
        match prim.createAccountKey input.passphrase userId input.account input.salt
          input.nonce with
        | .ok (key, material) => some (some (.setKeys false input.passphrase key material), saved)
        | .error _ => some (none, saved)
  | .gotKeys usePassphrase (some blob) => some (withBlob saved usePassphrase blob input)
  | .wasSet _ _ key (.created keyId) => some (none, some (key, keyId))
  | .wasSet false _ _ (.exists blob) => some (withBlob saved true blob input)
  | .wasSet true passphrase _ (.exists blob) =>
      some (saveUnlocked prim userId saved blob passphrase)
  | .enter blob => some (saveUnlocked prim userId saved blob input.passphrase)
  | .polled secret answer =>
      match answer with
      | none => some (some (.register input.secret), saved)
      | some status =>
          match takeApprovedKey prim (some status) (prim.approvalRequest secret)
            userId deviceId with
          | .error _ => some (none, saved)
          | .ok none => some (some (.wait secret), saved)
          | .ok (some (key, keyId)) => some (some (.clear key keyId), saved)
  | .keep key keyId => some (none, some (key, keyId))
  | .toUnlock _ none => some (none, saved)
  | .toUnlock passphrase (some blob) => some (saveUnlocked prim userId saved blob passphrase)
  | .toChange _ _ none => some (none, saved)
  | .toChange compare key (some blob) =>
      match unlockBlob prim userId blob input.passphrase with
      | .error _ => some (none, saved)
      | .ok opened =>
          if compare = true ∧ opened ≠ key ∨ input.next.length < minPassphraseChars then
            some (none, saved)
          else
            match prim.rewrapAccountKey key input.next userId input.salt input.nonce with
            | .ok material => some (some (.rewrap input.next material), saved)
            | .error _ => some (none, saved)
  | _ => none

/-! ## Every device of an account -/

structure Flow (Byte : Type) where
  deviceId : String
  phase : Phase Byte

/-- A vault key as a device wrapped it, for `POST /vaults`. -/
structure VaultKey (Byte : Type) where
  deviceId : String
  vaultId : String
  key : KeyBytes Byte
  wrapped : List Byte

/-- The server's side, the keychains and the flows. `accepted` are the
passphrases the server has taken, newest first. -/
structure World (Byte : Type) where
  server : Server.Account.World Byte
  saved : String → Saved Byte
  flows : Nat → Option (Flow Byte)
  vaultKeys : List (VaultKey Byte)
  accepted : List String

def World.start : World Byte := ⟨.start, fun _ => none, fun _ => none, [], []⟩

inductive Event (Byte : Type) where
  /-- `obsink login` or `obsink unlock` -/
  | unlockAccount (id : Nat) (deviceId : String) (usePassphrase : Bool)
  /-- `set_passphrase` of an app -/
  | setPassphrase (id : Nat) (deviceId : String) (input : Input Byte)
  /-- `unlock` of an app -/
  | unlock (id : Nat) (deviceId passphrase : String)
  /-- `obsink passphrase`, or `change_passphrase` of an app -/
  | changePassphrase (id : Nat) (deviceId : String) (compare : Bool)
  | serve (id : Nat) (keyId : String) (now : Nat)
  | go (id : Nat) (input : Input Byte)
  /-- A flow is killed, or never gets its answer. -/
  | drop (id : Nat)
  /-- A device forgets the account key. -/
  | forget (deviceId : String)
  | wrapVaultKey (deviceId vaultId : String) (key : KeyBytes Byte)
      (nonce : Sized Byte Aead.nonceLen)
  /-- Sign-ins, retention passes and the requests of approvers. -/
  | account (event : Server.Account.Event Byte)

/-- An approver wraps the key it has, and only flows set or change it. -/
def World.allows (w : World Byte) : Server.Account.Event Byte → Bool
  | .set _ _ | .rewrap _ => false
  | .wrap read account _ _ _ => (w.saved read.approver).any (·.1 = account)
  | _ => true

def World.startFlow (w : World Byte) (id : Nat) (deviceId : String) (phase : Phase Byte) :
    Option (World Byte) :=
  if (w.flows id).isSome then none
  else some { w with flows := Function.update w.flows id (some ⟨deviceId, phase⟩) }

def World.step (w : World Byte) : Event Byte → Option (World Byte)
  | .unlockAccount id deviceId usePassphrase => w.startFlow id deviceId (.getKeys usePassphrase)
  | .setPassphrase id deviceId input =>
      if input.passphrase.length < minPassphraseChars then none
      else
        match prim.createAccountKey input.passphrase userId input.account input.salt
          input.nonce with
        | .error _ => none
        | .ok (key, material) =>
            w.startFlow id deviceId (.setKeys true input.passphrase key material)
  | .unlock id deviceId passphrase => w.startFlow id deviceId (.unlock passphrase)
  | .changePassphrase id deviceId compare =>
      match w.saved deviceId with
      | none => none
      | some (key, _) => w.startFlow id deviceId (.change compare key)
  | .serve id keyId now =>
      match w.flows id with
      | none => none
      | some flow =>
          match flow.phase.serve prim flow.deviceId keyId now w.server.rows with
          | none => none
          | some served =>
              some { w with
                server := { w.server with rows := served.rows }
                flows := Function.update w.flows id (served.phase.map (⟨flow.deviceId, ·⟩))
                accepted := served.accepted.toList ++ w.accepted }
  | .go id input =>
      match w.flows id with
      | none => none
      | some flow =>
          match flow.phase.go prim userId flow.deviceId (w.saved flow.deviceId) input with
          | none => none
          | some (phase, saved) =>
              some { w with
                saved := Function.update w.saved flow.deviceId saved
                flows := Function.update w.flows id (phase.map (⟨flow.deviceId, ·⟩)) }
  | .drop id => some { w with flows := Function.update w.flows id none }
  | .forget deviceId => some { w with saved := Function.update w.saved deviceId none }
  | .wrapVaultKey deviceId vaultId key nonce =>
      match w.saved deviceId with
      | none => none
      | some (account, _) =>
          some { w with vaultKeys :=
            ⟨deviceId, vaultId, key, prim.wrapVaultKey account key vaultId nonce⟩ :: w.vaultKeys }
  | .account event =>
      if w.allows event then
        (w.server.step prim userId event).map fun server => { w with server := server }
      else none

end

end ObSink.Cli
