import Mathlib.Logic.Function.Basic
import ObSink.Lib.Runs

/-! # Sign-ins

`POST /auth/email/verify` is one transaction at Postgres READ COMMITTED: it
checks the one-time code (`server/src/auth/email.rs`), finds or creates the
account with an invite (`account.rs`, `invites.rs`, `users.rs`), registers the
device and mints its session (`devices.rs`, `sessions.rs`), and commits. A
world has the committed rows and the open transactions; a step runs one
statement of one of them. A statement sees the committed rows, takes the row
locks the code asks for and waits for those another transaction holds; what a
transaction writes is seen by nobody else until it commits.

Requests get here after their body was parsed. The redeem limiter is memory:
it only makes sign-ins fail, which they may here at any statement.
-/

namespace ObSink.Server.Signin

def otpTtlSecs : Nat := 600
def otpMaxAttempts : Nat := 5
def emailCodeRetentionSecs : Nat := 24 * 60 * 60
def sessionTtlSecs : Nat := 180 * 24 * 60 * 60

/-! ## Rows -/

variable {H : Type}

/-- A row of `email_codes`. `serial` is not stored: it says which stored code
the row holds. -/
structure CodeRow (H : Type) where
  codeHmac : Option H
  expires : Nat
  attempts : Nat
  lastSent : Nat
  serial : Nat
  deriving DecidableEq

structure InviteRow where
  createdBy : Option String
  created : Nat
  expires : Nat
  usedBy : Option String
  usedAt : Option Nat
  deriving DecidableEq

/-- A row of `users`. `via` is not stored: it is the invite the account was
created with. -/
structure UserRow (H : Type) where
  id : String
  emailHmac : H
  created : Nat
  via : Option String
  deriving DecidableEq

structure DeviceRow where
  userId : String
  id : String
  name : String
  platform : String
  created : Nat
  lastSeen : Nat
  deriving DecidableEq

structure SessionRow where
  id : String
  userId : String
  deviceId : String
  created : Nat
  expires : Nat
  deriving DecidableEq

/-- The committed rows. -/
structure Db (H : Type) where
  codes : H → Option (CodeRow H)
  invites : String → Option InviteRow
  users : List (UserRow H)
  devices : List DeviceRow
  sessions : List SessionRow

def Db.empty : Db H := ⟨fun _ => none, fun _ => none, [], [], []⟩

/-! ## Transactions -/

structure Verify where
  email : String
  code : String
  inviteCode : Option String
  deviceId : String
  deviceName : String
  platform : String
  now : Nat
  deriving DecidableEq

/-- The statement a transaction runs next, or its end. -/
inductive Phase where
  /-- `check_code`: `SELECT .. FROM email_codes .. FOR UPDATE` -/
  | check
  /-- `UPDATE email_codes SET code_hmac = NULL` after too many attempts. -/
  | void
  /-- `UPDATE email_codes SET attempts = attempts + 1` -/
  | strike
  /-- Commit, and answer with the rejection. -/
  | reject
  /-- `users::find_by_email` -/
  | findUser
  /-- `users::count` -/
  | count
  /-- `SELECT .. FROM invites .. FOR UPDATE` -/
  | redeem
  /-- `users::insert` -/
  | insert
  | markUsed
  /-- `devices::upsert` -/
  | device
  /-- `sessions::create`, its `DELETE` and its `INSERT`. -/
  | dropSession
  | session
  /-- `consume_code` -/
  | consume
  | commit
  /-- An error was returned: roll back. -/
  | failed
  deriving DecidableEq, Repr

/-- What a transaction has written. -/
structure Pending (H : Type) where
  strike : Bool := false
  void : Bool := false
  user : Option (UserRow H) := none
  used : Bool := false
  device : Option DeviceRow := none
  dropSession : Bool := false
  session : Option SessionRow := none

/-- An open transaction, with the rows of `email_codes` and `invites` that it
has locked, as it read them. -/
structure Tx (H : Type) where
  request : Verify
  phase : Phase := .check
  row : Option (CodeRow H) := none
  invite : Option (String × InviteRow) := none
  /-- It found no account, so it needs no invite. -/
  openSignup : Bool := false
  userId : String := ""
  pending : Pending H := {}

section

variable [DecidableEq H] (index : String → String → H)

/-- `keys.index("email", email)`: the server's keyed hash. -/
def Verify.emailHmac (request : Verify) : H := index "email" request.email

/-- The hash a stored code must have to be the request's code. -/
def Verify.expected (request : Verify) : H :=
  index "otp" (request.email ++ ":" ++ request.code)

/-- `normalize_code` -/
def normalizeCode (code : String) : String :=
  String.ofList ((code.toList.filter Char.isAlphanum).map Char.toUpper)

def inviteAlphabet : List Char := "ABCDEFGHJKLMNPQRSTUVWXYZ23456789".toList

/-- `well_formed` -/
def wellFormed (code : String) : Bool :=
  code.toList.length = 8 && code.toList.all (inviteAlphabet.contains ·)

/-- The invite a request names, if it names one at all. -/
def Verify.invite (request : Verify) : Option String :=
  (request.inviteCode.map normalizeCode).filter (· ≠ "")

/-- Which locks other transactions hold: on a row of `email_codes`, on a row of
`invites`, and on a new row of `users` (by address or id). -/
structure Held (H : Type) where
  code : H → Bool
  invite : String → Bool
  user : H → String → Bool

/-- `InviteRow` can be redeemed at a time. -/
def InviteRow.usable (row : InviteRow) (now : Nat) : Bool :=
  row.usedBy.isNone && row.usedAt.isNone && now < row.expires

/-- The next statement of a transaction, on the committed rows; `none` while it
waits. `fresh` is a random id for the statements that need one. -/
def Tx.statement (db : Db H) (held : Held H) (fresh : String) (tx : Tx H) : Option (Tx H) :=
  let request := tx.request
  let emailHmac := request.emailHmac index
  match tx.phase with
  | .check =>
      if held.code emailHmac then none
      else match db.codes emailHmac with
        | none => some { tx with phase := .reject }
        | some row =>
            some { tx with
              row := some row
              phase := match row.codeHmac.filter (fun _ => request.now < row.expires) with
                | none => .reject
                | some codeHmac =>
                    if otpMaxAttempts ≤ row.attempts then .void
                    else if request.expected index ≠ codeHmac then .strike
                    else .findUser }
  | .void => some { tx with phase := .reject, pending := { tx.pending with void := true } }
  | .strike => some { tx with phase := .reject, pending := { tx.pending with strike := true } }
  | .findUser =>
      match db.users.find? (·.emailHmac = emailHmac) with
      | some user => some { tx with phase := .device, userId := user.id }
      | none => some { tx with phase := .count }
  | .count =>
      if db.users.length = 0 then some { tx with phase := .insert, openSignup := true }
      else match request.invite with
        | none => some { tx with phase := .failed }
        | some code =>
            some { tx with phase := if wellFormed code then .redeem else .failed }
  | .redeem =>
      match request.invite with
      | none => some { tx with phase := .failed }
      | some code =>
          if held.invite code then none
          else match db.invites code with
            | none => some { tx with phase := .failed }
            | some row =>
                some { tx with
                  invite := some (code, row)
                  phase := if row.usable request.now then .insert else .failed }
  | .insert =>
      if held.user emailHmac fresh then none
      else if db.users.any (fun user => user.emailHmac = emailHmac ∨ user.id = fresh) then
        some { tx with phase := .failed }
      else
        some { tx with
          phase := if tx.invite.isSome then .markUsed else .device
          userId := fresh
          pending := { tx.pending with
            user := some ⟨fresh, emailHmac, request.now, tx.invite.map (·.1)⟩ } }
  | .markUsed => some { tx with phase := .device, pending := { tx.pending with used := true } }
  | .device =>
      some { tx with
        phase := .dropSession
        pending := { tx.pending with
          device := some ⟨tx.userId, request.deviceId, request.deviceName, request.platform,
            request.now, request.now⟩ } }
  | .dropSession =>
      some { tx with phase := .session, pending := { tx.pending with dropSession := true } }
  | .session =>
      some { tx with
        phase := .consume
        pending := { tx.pending with
          session := some ⟨fresh, tx.userId, request.deviceId, request.now,
            request.now + sessionTtlSecs⟩ } }
  | .consume => some { tx with phase := .commit, pending := { tx.pending with void := true } }
  | .reject | .commit | .failed => none

def Tx.locksCode (emailHmac : H) (tx : Tx H) : Bool :=
  tx.row.isSome && tx.request.emailHmac index = emailHmac

def Tx.locksInvite (code : String) (tx : Tx H) : Bool := tx.invite.any (·.1 = code)

/-- The transaction has inserted a user with this address or id. -/
def Tx.locksUser (emailHmac : H) (id : String) (tx : Tx H) : Bool :=
  tx.pending.user.any fun user => user.emailHmac = emailHmac || user.id = id

/-- What a transaction has written becomes the committed rows. -/
def Tx.written (tx : Tx H) (db : Db H) : Db H where
  codes :=
    let emailHmac := tx.request.emailHmac index
    Function.update db.codes emailHmac ((db.codes emailHmac).map fun row =>
      { row with
        codeHmac := if tx.pending.void then none else row.codeHmac
        attempts := if tx.pending.strike then row.attempts + 1 else row.attempts })
  invites :=
    match tx.invite, tx.pending.used with
    | some (code, _), true =>
        Function.update db.invites code ((db.invites code).map fun row =>
          { row with usedBy := some tx.userId, usedAt := some tx.request.now })
    | _, _ => db.invites
  users := db.users ++ tx.pending.user.toList
  devices :=
    match tx.pending.device with
    | none => db.devices
    | some device =>
        if db.devices.any (fun d => d.userId = device.userId ∧ d.id = device.id) then
          db.devices.map fun d =>
            if d.userId = device.userId ∧ d.id = device.id then { device with created := d.created }
            else d
        else db.devices ++ [device]
  sessions :=
    (if tx.pending.dropSession then
      db.sessions.filter (fun s => ¬(s.userId = tx.userId ∧ s.deviceId = tx.request.deviceId))
    else db.sessions) ++ tx.pending.session.toList

end

/-! ## Worlds -/

/-- What has happened, as an observer would note it: a code was stored, compared
with a wrong guess, or traded for a session (by a request of the time `now`,
committed at the time `at`). -/
inductive Entry (H : Type) where
  | stored (emailHmac : H) (serial expires : Nat)
  | wrong (serial : Nat)
  | session (emailHmac : H) (serial now clock : Nat)
  deriving DecidableEq

structure World (H : Type) where
  clock : Nat
  db : Db H
  /-- The open transactions, by the order in which their requests came. -/
  txs : Nat → Option (Tx H)
  /-- The number of requests so far. -/
  begun : Nat
  /-- The number of codes stored so far. -/
  serial : Nat
  /-- Newest first. -/
  log : List (Entry H)

def World.start : World H := ⟨0, .empty, fun _ => none, 0, 0, []⟩

inductive Event where
  | tick (seconds : Nat)
  /-- `store_code`, from `/auth/email/start` or `obsink-server code`; `now` was
  read before the mail went out. -/
  | storeCode (email code : String) (now : Nat)
  /-- A retention pass comes to the code of an address. -/
  | forgetCode (email : String) (now : Nat)
  /-- `invites::create` -/
  | createInvite (code : String) (createdBy : Option String) (now ttl : Nat)
  /-- A request comes in and reads the clock. -/
  | begin (request : Verify)
  | statement (id : Nat) (fresh : String)
  /-- A statement of a sign-in fails, or an error was returned: the transaction
  is dropped. -/
  | fail (id : Nat)
  deriving DecidableEq

section

variable [DecidableEq H] (index : String → String → H)

namespace World

/-- Whether an open transaction other than `id` meets a test. -/
def anyOther (w : World H) (id : Nat) (test : Tx H → Bool) : Bool :=
  (List.range w.begun).any fun other => other != id && (w.txs other).any test

/-- The locks that a statement of the transaction `id` may have to wait for. -/
def held (w : World H) (id : Nat) : Held H where
  code := fun emailHmac => w.anyOther id (Tx.locksCode index emailHmac)
  invite := fun code => w.anyOther id (Tx.locksInvite code)
  user := fun emailHmac fresh => w.anyOther id (Tx.locksUser emailHmac fresh)

/-- Some open transaction has locked the code of an address. -/
def codeLocked (w : World H) (emailHmac : H) : Bool :=
  w.anyOther w.begun (Tx.locksCode index emailHmac)

/-- What an observer notes when a transaction runs a statement. -/
def noteStatement (before after : Tx H) : List (Entry H) :=
  if before.phase = .check ∧ after.phase = .strike then
    (after.row.map fun row => Entry.wrong row.serial).toList
  else []

/-- What an observer notes when a transaction commits. -/
def noteCommit (clock : Nat) (tx : Tx H) : List (Entry H) :=
  if tx.phase = .commit then
    (tx.row.map fun row =>
      Entry.session (tx.request.emailHmac index) row.serial tx.request.now clock).toList
  else []

def step (w : World H) : Event → Option (World H)
  | .tick seconds => some { w with clock := w.clock + seconds }
  | .storeCode email code now =>
      let emailHmac := index "email" email
      if w.codeLocked index emailHmac then none
      else
        some { w with
          db := { w.db with
            codes := Function.update w.db.codes emailHmac
              (some ⟨some (index "otp" (email ++ ":" ++ code)), now + otpTtlSecs, 0,
                now, w.serial⟩) }
          serial := w.serial + 1
          log := .stored emailHmac w.serial (now + otpTtlSecs) :: w.log }
  | .forgetCode email now =>
      let emailHmac := index "email" email
      if w.codeLocked index emailHmac then none
      else match w.db.codes emailHmac with
        | none => none
        | some row =>
            if row.lastSent < now - emailCodeRetentionSecs then
              some { w with db := { w.db with codes := Function.update w.db.codes emailHmac none } }
            else none
  | .createInvite code createdBy now ttl =>
      if (w.db.invites code).isSome then none
      else
        some { w with
          db := { w.db with
            invites := Function.update w.db.invites code
              (some ⟨createdBy, now, now + ttl, none, none⟩) } }
  | .begin request =>
      some { w with
        txs := Function.update w.txs w.begun (some { request := { request with now := w.clock } })
        begun := w.begun + 1 }
  | .statement id fresh =>
      match w.txs id with
      | none => none
      | some tx =>
          if tx.phase = .reject ∨ tx.phase = .commit then
            some { w with
              db := tx.written index w.db
              txs := Function.update w.txs id none
              log := noteCommit index w.clock tx ++ w.log }
          else
            (tx.statement index w.db (w.held index id) fresh).map fun next =>
              { w with
                txs := Function.update w.txs id (some next)
                log := noteStatement tx next ++ w.log }
  | .fail id =>
      match w.txs id with
      | none => none
      | some tx =>
          -- The counter's update and its commit are not seen to fail.
          if tx.phase = .void ∨ tx.phase = .strike ∨ tx.phase = .reject then none
          else some { w with txs := Function.update w.txs id none }

/-! ## What a step does -/

variable {index} {w w' : World H}

omit [DecidableEq H] in
theorem anyOther_eq_false {id other : Nat} {test : Tx H → Bool} {tx : Tx H}
    (h : w.anyOther id test = false) (hother : other ≠ id) (hbegun : other < w.begun)
    (htx : w.txs other = some tx) : test tx = false := by
  unfold anyOther at h
  rw [List.any_eq_false] at h
  have htest := h other (List.mem_range.mpr hbegun)
  rw [htx] at htest
  simpa [hother] using htest

/-- A transaction's step is its commit or another statement. -/
theorem step_statement {id : Nat} {fresh : String}
    (h : w.step index (.statement id fresh) = some w') :
    ∃ tx, w.txs id = some tx ∧
      ((tx.phase = .reject ∨ tx.phase = .commit) ∧
        w' = { w with
          db := tx.written index w.db
          txs := Function.update w.txs id none
          log := noteCommit index w.clock tx ++ w.log } ∨
      ∃ next, tx.statement index w.db (w.held index id) fresh = some next ∧
        w' = { w with
          txs := Function.update w.txs id (some next)
          log := noteStatement tx next ++ w.log }) := by
  simp only [step] at h
  split at h
  next => cases h
  next tx htx =>
    refine ⟨tx, htx, ?_⟩
    split at h
    next hphase => exact Or.inl ⟨hphase, (Option.some.inj h).symm⟩
    next =>
      obtain ⟨next, hnext, heq⟩ := Option.map_eq_some_iff.mp h
      exact Or.inr ⟨next, hnext, heq.symm⟩

theorem step_fail {id : Nat} (h : w.step index (.fail id) = some w') :
    ∃ tx, w.txs id = some tx ∧ tx.phase ≠ .void ∧ tx.phase ≠ .strike ∧ tx.phase ≠ .reject ∧
      w' = { w with txs := Function.update w.txs id none } := by
  simp only [step] at h
  split at h
  next => cases h
  next tx htx =>
    split at h
    next => cases h
    next hphase =>
      simp only [not_or] at hphase
      exact ⟨tx, htx, hphase.1, hphase.2.1, hphase.2.2, (Option.some.inj h).symm⟩

theorem step_storeCode {email code : String} {now : Nat}
    (h : w.step index (.storeCode email code now) = some w') :
    w.codeLocked index (index "email" email) = false ∧
      w' = { w with
        db := { w.db with
          codes := Function.update w.db.codes (index "email" email)
            (some ⟨some (index "otp" (email ++ ":" ++ code)), now + otpTtlSecs, 0, now, w.serial⟩) }
        serial := w.serial + 1
        log := .stored (index "email" email) w.serial (now + otpTtlSecs) :: w.log } := by
  simp only [step] at h
  split at h
  next => cases h
  next hfree => exact ⟨by simpa using hfree, (Option.some.inj h).symm⟩

theorem step_forgetCode {email : String} {now : Nat}
    (h : w.step index (.forgetCode email now) = some w') :
    w.codeLocked index (index "email" email) = false ∧
      w' = { w with
        db := { w.db with codes := Function.update w.db.codes (index "email" email) none } } := by
  simp only [step] at h
  split at h
  next => cases h
  next hfree =>
    split at h
    next => cases h
    next =>
      split at h
      next => exact ⟨by simpa using hfree, (Option.some.inj h).symm⟩
      next => cases h

theorem step_createInvite {code : String} {createdBy : Option String} {now ttl : Nat}
    (h : w.step index (.createInvite code createdBy now ttl) = some w') :
    w.db.invites code = none ∧
      w' = { w with
        db := { w.db with
          invites := Function.update w.db.invites code
            (some ⟨createdBy, now, now + ttl, none, none⟩) } } := by
  simp only [step] at h
  split at h
  next => cases h
  next hnone => exact ⟨by simpa using hnone, (Option.some.inj h).symm⟩

omit [DecidableEq H] in
/-- The open transactions after one of them has gone on or ended. -/
theorem update_some {txs : Nat → Option (Tx H)} {id other : Nat} {value : Option (Tx H)}
    {tx : Tx H} (h : Function.update txs id value other = some tx) :
    other = id ∧ value = some tx ∨ other ≠ id ∧ txs other = some tx := by
  by_cases heq : other = id
  · subst heq
    rw [Function.update_self] at h
    exact Or.inl ⟨rfl, h⟩
  · rw [Function.update_of_ne heq] at h
    exact Or.inr ⟨heq, h⟩

end World

end

end ObSink.Server.Signin
