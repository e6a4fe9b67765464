import Mathlib.Data.List.Nodup
import ObSink.Server.Signin

/-! # One-time codes

What becomes of each code that is stored for an address: how often it is
compared with a wrong guess, and which sessions it is traded for. Every stored
code has its own serial number, so a code that is replaced and the one that
replaces it are told apart even when their digits agree.
-/

namespace ObSink.Server.Signin

variable {H : Type}

/-! ## The log -/

def Entry.wrongSerial : Entry H → Option Nat
  | .wrong serial => some serial
  | _ => none

def Entry.sessionSerial : Entry H → Option Nat
  | .session _ serial _ _ => some serial
  | _ => none

/-- The codes compared with a wrong guess, once for each guess. -/
def wrongs (log : List (Entry H)) : List Nat := log.filterMap Entry.wrongSerial

/-- The codes traded for a session. -/
def sessions (log : List (Entry H)) : List Nat := log.filterMap Entry.sessionSerial

section

variable [DecidableEq H]

/-- The newest code of an address, with its expiry. -/
def newest (emailHmac : H) : List (Entry H) → Option (Nat × Nat)
  | [] => none
  | .stored address serial expires :: rest =>
      if address = emailHmac then some (serial, expires) else newest emailHmac rest
  | _ :: rest => newest emailHmac rest

/-- Every session was traded for the code that was the newest of its address,
by a request that came before the code's expiry. -/
def Timely : List (Entry H) → Prop
  | [] => True
  | .session emailHmac serial now _ :: rest =>
      (∃ expires, newest emailHmac rest = some (serial, expires) ∧ now < expires) ∧ Timely rest
  | _ :: rest => Timely rest

variable (index : String → String → H)

/-! ## One transaction -/

/-- The guess was wrong, which the transaction counts. -/
def Tx.struck (tx : Tx H) : Bool := tx.phase = .strike || tx.pending.strike

/-- The guess was right: the transaction is a sign-in. -/
def Tx.matched (tx : Tx H) : Bool :=
  match tx.phase with
  | .check | .void | .strike | .reject => false
  | _ => true

/-- The code of a row can be traded for a session by the request. -/
structure CodeRow.Usable (row : CodeRow H) (request : Verify) : Prop where
  right : row.codeHmac = some (request.expected index)
  early : request.now < row.expires
  few : row.attempts < otpMaxAttempts

/-- What a transaction has done to the code, by the statement it comes to. -/
def Tx.CodeConsistent (tx : Tx H) : Prop :=
  match tx.phase with
  | .check => tx.row = none ∧ tx.pending.strike = false ∧ tx.pending.void = false
  | .void | .strike => tx.row.isSome = true ∧ tx.pending.strike = false ∧ tx.pending.void = false
  | .reject => tx.row = none → tx.pending.strike = false ∧ tx.pending.void = false
  | .commit => (∃ row, tx.row = some row ∧ row.Usable index tx.request) ∧
      tx.pending.strike = false ∧ tx.pending.void = true
  | _ => (∃ row, tx.row = some row ∧ row.Usable index tx.request) ∧
      tx.pending.strike = false ∧ tx.pending.void = false

variable {index} {db : Db H} {held : Held H} {fresh : String} {tx next : Tx H}

theorem Tx.CodeConsistent.statement (h : tx.CodeConsistent index)
    (hnext : tx.statement index db held fresh = some next) : next.CodeConsistent index := by
  unfold Tx.statement at hnext
  cases hphase : tx.phase <;> simp only [hphase, Tx.CodeConsistent] at h hnext <;>
    grind [Tx.CodeConsistent, CodeRow.Usable, Option.filter_eq_some_iff]

/-- The row of the code is locked as it is committed, when nobody else has
locked it, and by the first statement. -/
theorem Tx.statement_row (h : tx.CodeConsistent index)
    (hnext : tx.statement index db held fresh = some next) :
    next.request = tx.request ∧ next.row = tx.row ∧ next.struck = tx.struck ∧
        World.noteStatement tx next = [] ∨
      next.request = tx.request ∧ tx.phase = .check ∧
        held.code (tx.request.emailHmac index) = false ∧
        ∃ row, next.row = some row ∧ db.codes (tx.request.emailHmac index) = some row ∧
          (next.struck = true ∧ row.attempts < otpMaxAttempts ∧
              World.noteStatement tx next = [.wrong row.serial] ∨
            next.struck = false ∧ World.noteStatement tx next = []) := by
  unfold Tx.statement at hnext
  cases hphase : tx.phase <;> simp only [hphase, Tx.CodeConsistent] at h hnext <;>
    grind [Tx.struck, World.noteStatement]

/-! ## Every world -/

variable (index) in
/-- The committed codes, the open transactions and the log agree. -/
structure Accounted (w : World H) : Prop where
  begun : ∀ id tx, w.txs id = some tx → id < w.begun
  consistent : ∀ id tx, w.txs id = some tx → tx.CodeConsistent index
  locked : ∀ id tx row, w.txs id = some tx → tx.row = some row →
    w.db.codes (tx.request.emailHmac index) = some row
  oneHolder : ∀ i j tx tx', w.txs i = some tx → w.txs j = some tx' → tx.row.isSome = true →
    tx'.row.isSome = true → tx.request.emailHmac index = tx'.request.emailHmac index → i = j
  known : ∀ emailHmac row, w.db.codes emailHmac = some row →
    row.serial < w.serial ∧ newest emailHmac w.log = some (row.serial, row.expires)
  oneAddress : ∀ emailHmac emailHmac' row row', w.db.codes emailHmac = some row →
    w.db.codes emailHmac' = some row' → row.serial = row'.serial → emailHmac = emailHmac'
  logged : (∀ serial ∈ wrongs w.log, serial < w.serial) ∧ ∀ serial ∈ sessions w.log,
    serial < w.serial
  /-- The counter of a code, unless a transaction is about to raise it. -/
  counted : ∀ emailHmac row, w.db.codes emailHmac = some row →
    (∀ id tx, w.txs id = some tx → tx.struck = true →
      tx.request.emailHmac index ≠ emailHmac) → (wrongs w.log).count row.serial = row.attempts
  struck : ∀ id tx row, w.txs id = some tx → tx.row = some row → tx.struck = true →
    (wrongs w.log).count row.serial = row.attempts + 1
  few : ∀ serial, (wrongs w.log).count serial ≤ otpMaxAttempts
  spent : ∀ emailHmac row, w.db.codes emailHmac = some row → row.serial ∈ sessions w.log →
    row.codeHmac = none
  once : (sessions w.log).Nodup
  timely : Timely w.log

namespace Accounted

variable {w w' : World H}

theorem start : Accounted index (World.start : World H) := by
  constructor <;> simp [World.start, Db.empty, wrongs, sessions, Timely]

/-- A struck transaction has locked the code. -/
theorem row_of_struck (h : Accounted index w) {id : Nat} (htx : w.txs id = some tx)
    (hstruck : tx.struck = true) : tx.row.isSome = true := by
  have hconsistent := h.consistent id tx htx
  cases hrow : tx.row with
  | some row => rfl
  | none =>
      unfold Tx.CodeConsistent at hconsistent
      unfold Tx.struck at hstruck
      grind

/-- Steps that at most drop transactions whose guess was not wrong. -/
theorem frame (h : Accounted index w) (hbegun : w'.begun = w.begun)
    (htxs : ∀ id tx, w'.txs id = some tx → w.txs id = some tx)
    (hstruck : ∀ id tx, w.txs id = some tx → tx.struck = true → w'.txs id = some tx)
    (hcodes : w'.db.codes = w.db.codes) (hserial : w'.serial = w.serial) (hlog : w'.log = w.log) :
    Accounted index w' where
  begun := fun id tx htx => hbegun ▸ h.begun id tx (htxs id tx htx)
  consistent := fun id tx htx => h.consistent id tx (htxs id tx htx)
  locked := fun id tx row htx => hcodes ▸ h.locked id tx row (htxs id tx htx)
  oneHolder := fun i j tx tx' htx htx' => h.oneHolder i j tx tx' (htxs i tx htx) (htxs j tx' htx')
  known := hcodes ▸ hserial ▸ hlog ▸ h.known
  oneAddress := hcodes ▸ h.oneAddress
  logged := hserial ▸ hlog ▸ h.logged
  counted := by
    intro emailHmac row hrow hnone
    rw [hlog]
    apply h.counted emailHmac row (hcodes ▸ hrow)
    intro id tx htx hstrikes
    exact hnone id tx (hstruck id tx htx hstrikes) hstrikes
  struck := fun id tx row htx => hlog ▸ h.struck id tx row (htxs id tx htx)
  few := hlog ▸ h.few
  spent := hcodes ▸ hlog ▸ h.spent
  once := hlog ▸ h.once
  timely := hlog ▸ h.timely

/-- No open transaction has locked the code of an address. -/
theorem unlocked (h : Accounted index w) {emailHmac : H}
    (hfree : w.codeLocked index emailHmac = false) {id : Nat} {tx : Tx H}
    (htx : w.txs id = some tx) (hrow : tx.row.isSome = true) :
    tx.request.emailHmac index ≠ emailHmac := by
  have hid := h.begun id tx htx
  have hlocks := World.anyOther_eq_false hfree (Nat.ne_of_lt hid) hid htx
  simpa [Tx.locksCode, hrow] using hlocks

theorem storeCode (h : Accounted index w) {emailHmac : H}
    (hfree : w.codeLocked index emailHmac = false) {row : CodeRow H}
    (hserial : row.serial = w.serial) (hattempts : row.attempts = 0) :
    Accounted index { w with
      db := { w.db with codes := Function.update w.db.codes emailHmac (some row) }
      serial := w.serial + 1
      log := .stored emailHmac w.serial row.expires :: w.log } := by
  have hother : ∀ address row', address ≠ emailHmac →
      Function.update w.db.codes emailHmac (some row) address = some row' →
      w.db.codes address = some row' := by
    intro address row' hne hrow'
    rwa [Function.update_of_ne hne] at hrow'
  have hself : ∀ row', Function.update w.db.codes emailHmac (some row) emailHmac = some row' →
      row' = row := by
    intro row' hrow'
    rw [Function.update_self] at hrow'
    exact (Option.some.inj hrow').symm
  constructor
  · exact h.begun
  · exact h.consistent
  · -- a transaction that holds a row locked it, and this address is free
    intro id tx row' htx hrow'
    have hne := h.unlocked hfree htx (by simp [hrow'])
    exact (Function.update_of_ne hne _ _).trans (h.locked id tx row' htx hrow')
  · exact h.oneHolder
  · intro address row' hrow'
    by_cases heq : address = emailHmac
    · subst heq
      rw [hself row' hrow']
      exact ⟨by simp [hserial], by simp [newest, hserial]⟩
    · obtain ⟨hlt, hnewest⟩ := h.known address row' (hother address row' heq hrow')
      refine ⟨Nat.lt_succ_of_lt hlt, ?_⟩
      rw [newest, if_neg (Ne.symm heq)]
      exact hnewest
  · -- the new serial is above every stored one, so no two addresses share it
    intro address address' row₁ row₂ hrow₁ hrow₂ hsame
    by_cases heq : address = emailHmac
    · by_cases heq' : address' = emailHmac
      · rw [heq, heq']
      · subst heq
        have := (h.known address' row₂ (hother address' row₂ heq' hrow₂)).1
        rw [hself row₁ hrow₁] at hsame
        omega
    · by_cases heq' : address' = emailHmac
      · subst heq'
        have := (h.known address row₁ (hother address row₁ heq hrow₁)).1
        rw [hself row₂ hrow₂] at hsame
        omega
      · exact h.oneAddress address address' row₁ row₂ (hother address row₁ heq hrow₁)
          (hother address' row₂ heq' hrow₂) hsame
  · exact ⟨fun serial hmem => Nat.lt_succ_of_lt (h.logged.1 serial hmem),
      fun serial hmem => Nat.lt_succ_of_lt (h.logged.2 serial hmem)⟩
  · intro address row' hrow' hnone
    by_cases heq : address = emailHmac
    · subst heq
      rw [hself row' hrow', hattempts]
      apply List.count_eq_zero_of_not_mem
      intro hmem
      have := h.logged.1 _ hmem
      omega
    · exact h.counted address row' (hother address row' heq hrow') hnone
  · exact h.struck
  · exact h.few
  · intro address row' hrow' hmem
    by_cases heq : address = emailHmac
    · subst heq
      rw [hself row' hrow'] at hmem
      have := h.logged.2 _ hmem
      omega
    · exact h.spent address row' (hother address row' heq hrow') hmem
  · exact h.once
  · exact h.timely

theorem forgetCode (h : Accounted index w) {emailHmac : H}
    (hfree : w.codeLocked index emailHmac = false) :
    Accounted index { w with
      db := { w.db with codes := Function.update w.db.codes emailHmac none } } := by
  have hold : ∀ address row, Function.update w.db.codes emailHmac none address = some row →
      w.db.codes address = some row := by
    intro address row hrow
    by_cases heq : address = emailHmac
    · subst heq
      rw [Function.update_self] at hrow
      cases hrow
    · rwa [Function.update_of_ne heq] at hrow
  constructor
  · exact h.begun
  · exact h.consistent
  · intro id tx row htx hrow
    have hne := h.unlocked hfree htx (by simp [hrow])
    exact (Function.update_of_ne hne _ _).trans (h.locked id tx row htx hrow)
  · exact h.oneHolder
  · exact fun address row hrow => h.known address row (hold address row hrow)
  · exact fun address address' row row' hrow hrow' =>
      h.oneAddress address address' row row' (hold address row hrow) (hold address' row' hrow')
  · exact h.logged
  · exact fun address row hrow => h.counted address row (hold address row hrow)
  · exact h.struck
  · exact h.few
  · exact fun address row hrow => h.spent address row (hold address row hrow)
  · exact h.once
  · exact h.timely

/-- A new transaction, or one that goes on with the lock it has. -/
theorem advance (h : Accounted index w) {id begun : Nat} (hid : id < begun)
    (hbegun : w.begun ≤ begun) {next : Tx H} (hconsistent : next.CodeConsistent index)
    (hrow : ∀ row, next.row = some row → ∃ tx, w.txs id = some tx ∧ tx.row = some row ∧
      tx.request = next.request ∧ tx.struck = next.struck)
    (hstruck : ∀ tx, w.txs id = some tx → tx.struck = true →
      next.struck = true ∧ tx.request = next.request) :
    Accounted index { w with txs := Function.update w.txs id (some next), begun := begun } := by
  have hback : ∀ other tx, Function.update w.txs id (some next) other = some tx →
      tx.row.isSome = true → ∃ tx', w.txs other = some tx' ∧ tx'.row = tx.row ∧
        tx'.request = tx.request ∧ tx'.struck = tx.struck := by
    intro other tx htx hsome
    obtain ⟨rfl, heq⟩ | ⟨-, hold⟩ := World.update_some htx
    · cases heq
      obtain ⟨row, hmine⟩ := Option.isSome_iff_exists.mp hsome
      obtain ⟨tx', htx', hrow', hrequest, hsame⟩ := hrow row hmine
      exact ⟨tx', htx', hrow'.trans hmine.symm, hrequest, hsame⟩
    · exact ⟨tx, hold, rfl, rfl, rfl⟩
  constructor
  · intro other tx htx
    obtain ⟨heq, -⟩ | ⟨-, hold⟩ := World.update_some htx
    · exact heq ▸ hid
    · exact Nat.lt_of_lt_of_le (h.begun other tx hold) hbegun
  · intro other tx htx
    obtain ⟨-, heq⟩ | ⟨-, hold⟩ := World.update_some htx
    · exact Option.some.inj heq ▸ hconsistent
    · exact h.consistent other tx hold
  · intro other tx row htx hmine
    obtain ⟨tx', htx', hrow', hrequest, -⟩ := hback other tx htx (by simp [hmine])
    rw [← hrequest]
    exact h.locked other tx' row htx' (hrow'.trans hmine)
  · intro i j tx tx' htx htx' hmine hmine' hsame
    obtain ⟨tx₁, htx₁, hrow₁, hrequest₁, -⟩ := hback i tx htx hmine
    obtain ⟨tx₂, htx₂, hrow₂, hrequest₂, -⟩ := hback j tx' htx' hmine'
    rw [← hrequest₁, ← hrequest₂] at hsame
    exact h.oneHolder i j tx₁ tx₂ htx₁ htx₂ (hrow₁ ▸ hmine) (hrow₂ ▸ hmine') hsame
  · exact h.known
  · exact h.oneAddress
  · exact h.logged
  · intro emailHmac row hcode hnone
    apply h.counted emailHmac row hcode
    intro other tx htx hstrikes
    by_cases heq : other = id
    · subst heq
      obtain ⟨hnext, hrequest⟩ := hstruck tx htx hstrikes
      rw [hrequest]
      exact hnone other next (Function.update_self ..) hnext
    · exact hnone other tx ((Function.update_of_ne heq _ _).trans htx) hstrikes
  · intro other tx row htx hmine hstrikes
    obtain ⟨tx', htx', hrow', -, hsame⟩ := hback other tx htx (by simp [hmine])
    exact h.struck other tx' row htx' (hrow'.trans hmine) (hsame.trans hstrikes)
  · exact h.few
  · exact h.spent
  · exact h.once
  · exact h.timely

/-- A transaction locks the code, without or with a wrong guess. -/
theorem acquire (h : Accounted index w) {id : Nat} {next : Tx H} (hid : id < w.begun)
    (hidle : ∀ tx, w.txs id = some tx → tx.struck = false)
    (hconsistent : next.CodeConsistent index) {row : CodeRow H} (hrow : next.row = some row)
    (hcode : w.db.codes (next.request.emailHmac index) = some row)
    (hfree : w.anyOther id (Tx.locksCode index (next.request.emailHmac index)) = false)
    {note : List (Entry H)}
    (hnote : next.struck = true ∧ row.attempts < otpMaxAttempts ∧ note = [.wrong row.serial] ∨
      next.struck = false ∧ note = []) :
    Accounted index { w with
      txs := Function.update w.txs id (some next)
      log := note ++ w.log } := by
  -- The others that have locked a code have locked another one.
  have hothers : ∀ other tx, other ≠ id → w.txs other = some tx → tx.row.isSome = true →
      tx.request.emailHmac index ≠ next.request.emailHmac index := by
    intro other tx hother htx hsome
    have hlocks := World.anyOther_eq_false hfree hother (h.begun other tx htx) htx
    simpa [Tx.locksCode, hsome] using hlocks
  have hattempts : (wrongs w.log).count row.serial = row.attempts := by
    apply h.counted _ row hcode
    intro other tx htx hstruck
    by_cases heq : other = id
    · subst heq
      rw [hidle tx htx] at hstruck
      cases hstruck
    · exact hothers other tx heq htx (h.row_of_struck htx hstruck)
  have hcount : ∀ serial, serial ≠ row.serial →
      (wrongs (note ++ w.log)).count serial = (wrongs w.log).count serial := by
    intro serial hne
    obtain ⟨-, -, rfl⟩ | ⟨-, rfl⟩ := hnote
    · simp [wrongs, Entry.wrongSerial, Ne.symm hne]
    · rfl
  have hsessions : sessions (note ++ w.log) = sessions w.log := by
    obtain ⟨-, -, rfl⟩ | ⟨-, rfl⟩ := hnote <;> rfl
  have hnewest : ∀ emailHmac, newest emailHmac (note ++ w.log) = newest emailHmac w.log := by
    intro emailHmac
    obtain ⟨-, -, rfl⟩ | ⟨-, rfl⟩ := hnote <;> rfl
  constructor
  · intro other tx htx
    obtain ⟨heq, -⟩ | ⟨-, hold⟩ := World.update_some htx
    · exact heq ▸ hid
    · exact h.begun other tx hold
  · intro other tx htx
    obtain ⟨-, heq⟩ | ⟨-, hold⟩ := World.update_some htx
    · exact Option.some.inj heq ▸ hconsistent
    · exact h.consistent other tx hold
  · intro other tx row' htx hrow'
    obtain ⟨-, heq⟩ | ⟨-, hold⟩ := World.update_some htx
    · cases heq
      rw [hrow] at hrow'
      exact Option.some.inj hrow' ▸ hcode
    · exact h.locked other tx row' hold hrow'
  · intro i j tx tx' htx htx' hsome hsome' hsame
    obtain ⟨hi, heq⟩ | ⟨hi, hold⟩ := World.update_some htx
    · obtain ⟨hj, -⟩ | ⟨hj, hold'⟩ := World.update_some htx'
      · rw [hi, hj]
      · cases heq
        exact absurd hsame.symm (hothers j tx' hj hold' hsome')
    · obtain ⟨hj, heq'⟩ | ⟨hj, hold'⟩ := World.update_some htx'
      · cases heq'
        exact absurd hsame (hothers i tx hi hold hsome)
      · exact h.oneHolder i j tx tx' hold hold' hsome hsome' hsame
  · intro emailHmac row' hrow'
    rw [hnewest]
    exact h.known emailHmac row' hrow'
  · exact h.oneAddress
  · refine ⟨?_, hsessions ▸ h.logged.2⟩
    intro serial hmem
    by_cases heq : serial = row.serial
    · exact heq ▸ (h.known _ row hcode).1
    · apply h.logged.1
      rw [← List.count_pos_iff] at hmem ⊢
      rwa [hcount serial heq] at hmem
  · intro emailHmac row' hrow' hnone
    by_cases heq : emailHmac = next.request.emailHmac index
    · -- Nobody is about to count, so the guess was not wrong.
      subst heq
      rw [hcode] at hrow'
      cases hrow'
      obtain ⟨hstruck, -⟩ | ⟨-, rfl⟩ := hnote
      · exact absurd rfl (hnone id next (Function.update_self ..) hstruck)
      · exact hattempts
    · rw [hcount _ (fun hserial => heq (h.oneAddress _ _ _ _ hrow' hcode hserial))]
      apply h.counted emailHmac row' hrow'
      intro other tx htx hstruck
      by_cases hother : other = id
      · subst hother
        rw [hidle tx htx] at hstruck
        cases hstruck
      · exact hnone other tx ((Function.update_of_ne hother _ _).trans htx) hstruck
  · intro other tx row' htx hrow' hstruck
    obtain ⟨-, heq⟩ | ⟨hother, hold⟩ := World.update_some htx
    · cases heq
      rw [hrow] at hrow'
      cases hrow'
      obtain ⟨-, -, rfl⟩ | ⟨hclean, -⟩ := hnote
      · rw [← hattempts]
        simp [wrongs, Entry.wrongSerial]
      · rw [hclean] at hstruck
        cases hstruck
    · have hrow'' := h.locked other tx row' hold hrow'
      rw [hcount _ (fun hserial => hothers other tx hother hold (by simp [hrow'])
        (h.oneAddress _ _ _ _ hrow'' hcode hserial))]
      exact h.struck other tx row' hold hrow' hstruck
  · intro serial
    by_cases heq : serial = row.serial
    · subst heq
      obtain ⟨-, hfew, rfl⟩ | ⟨-, rfl⟩ := hnote
      · have hsucc : (wrongs ([.wrong row.serial] ++ w.log)).count row.serial =
            row.attempts + 1 := by
          rw [← hattempts]
          simp [wrongs, Entry.wrongSerial]
        exact Nat.le_trans (Nat.le_of_eq hsucc) hfew
      · exact h.few row.serial
    · rw [hcount serial heq]
      exact h.few serial
  · rw [hsessions]
    exact h.spent
  · rw [hsessions]
    exact h.once
  · obtain ⟨-, -, rfl⟩ | ⟨-, rfl⟩ := hnote
    · exact h.timely
    · exact h.timely

/-- A transaction without a lock ends. -/
theorem commit_unlocked (h : Accounted index w) {id : Nat} (htx : w.txs id = some tx)
    (hphase : tx.phase = .reject) (hrow : tx.row = none) :
    Accounted index { w with
      db := tx.written index w.db
      txs := Function.update w.txs id none
      log := World.noteCommit index w.clock tx ++ w.log } := by
  have hconsistent := h.consistent id tx htx
  rw [Tx.CodeConsistent, hphase] at hconsistent
  obtain ⟨hstrike, hvoid⟩ := hconsistent hrow
  refine h.frame rfl ?_ ?_ ?_ rfl ?_
  · intro other tx' htx'
    obtain ⟨-, hnone⟩ | ⟨-, hold⟩ := World.update_some htx'
    · cases hnone
    · exact hold
  · intro other tx' htx' hstruck
    have hne : other ≠ id := by
      rintro rfl
      rw [htx] at htx'
      cases htx'
      have hsome := h.row_of_struck htx hstruck
      rw [hrow] at hsome
      cases hsome
    exact (Function.update_of_ne hne _ _).trans htx'
  · simp [Tx.written, hstrike, hvoid]
  · simp [World.noteCommit, hphase]

/-- A transaction that has locked the code ends: the counter goes up if it was
struck, and the code is gone if it became a session. -/
theorem commit_locked (h : Accounted index w) {id : Nat} (htx : w.txs id = some tx)
    (hphase : tx.phase = .reject ∨ tx.phase = .commit) {row : CodeRow H}
    (hrow : tx.row = some row) :
    Accounted index { w with
      db := tx.written index w.db
      txs := Function.update w.txs id none
      log := World.noteCommit index w.clock tx ++ w.log } := by
  have hcode := h.locked id tx row htx hrow
  have hconsistent := h.consistent id tx htx
  have hleft : ∀ other tx', Function.update w.txs id none other = some tx' →
      other ≠ id ∧ w.txs other = some tx' := by
    intro other tx' htx'
    obtain ⟨-, hnone⟩ | hold := World.update_some htx'
    · cases hnone
    · exact hold
  have hothers : ∀ other tx', other ≠ id → w.txs other = some tx' → tx'.row.isSome = true →
      tx'.request.emailHmac index ≠ tx.request.emailHmac index := by
    intro other tx' hother htx' hsome hsame
    exact hother (h.oneHolder other id tx' tx htx' htx hsome (by simp [hrow]) hsame)
  -- The rows after the commit, each with the one before it.
  have hself : ∀ row', (tx.written index w.db).codes (tx.request.emailHmac index) = some row' →
      row' = { row with
        codeHmac := if tx.pending.void then none else row.codeHmac
        attempts := if tx.pending.strike then row.attempts + 1 else row.attempts } := by
    intro row' hrow'
    simp only [Tx.written, Function.update_self, hcode, Option.map_some, Option.some_inj] at hrow'
    exact hrow'.symm
  have hold : ∀ emailHmac row', emailHmac ≠ tx.request.emailHmac index →
      (tx.written index w.db).codes emailHmac = some row' → w.db.codes emailHmac = some row' := by
    intro emailHmac row' hne hrow'
    simp only [Tx.written, Function.update_of_ne hne] at hrow'
    exact hrow'
  have hback : ∀ emailHmac row', (tx.written index w.db).codes emailHmac = some row' →
      ∃ before, w.db.codes emailHmac = some before ∧ before.serial = row'.serial ∧
        before.expires = row'.expires := by
    intro emailHmac row' hrow'
    by_cases heq : emailHmac = tx.request.emailHmac index
    · subst heq
      rw [hself row' hrow']
      exact ⟨row, hcode, rfl, rfl⟩
    · exact ⟨row', hold emailHmac row' heq hrow', rfl, rfl⟩
  have hwrongs : wrongs (World.noteCommit index w.clock tx ++ w.log) = wrongs w.log := by
    cases hphase with
    | inl hreject => simp [World.noteCommit, hreject]
    | inr hcommit =>
        simp only [World.noteCommit, hcommit, hrow, if_true, Option.map_some, Option.toList_some]
        rfl
  have hnewest : ∀ emailHmac, newest emailHmac (World.noteCommit index w.clock tx ++ w.log) =
      newest emailHmac w.log := by
    intro emailHmac
    cases hphase with
    | inl hreject => simp [World.noteCommit, hreject]
    | inr hcommit => simp [World.noteCommit, hcommit, hrow, newest]
  -- A right guess trades the code for one session, and a first one.
  have hsession : tx.phase = .reject ∧
        World.noteCommit index w.clock tx ++ w.log = w.log ∨
      (row.Usable index tx.request ∧ tx.pending.void = true ∧
        World.noteCommit index w.clock tx ++ w.log =
          .session (tx.request.emailHmac index) row.serial tx.request.now w.clock :: w.log) := by
    cases hphase with
    | inl hreject => exact Or.inl ⟨hreject, by simp [World.noteCommit, hreject]⟩
    | inr hcommit =>
        rw [Tx.CodeConsistent, hcommit] at hconsistent
        obtain ⟨⟨row', hrow', husable⟩, -, hvoid⟩ := hconsistent
        rw [hrow] at hrow'
        cases hrow'
        exact Or.inr ⟨husable, hvoid, by simp [World.noteCommit, hcommit, hrow]⟩
  constructor
  · exact fun other tx' htx' => h.begun other tx' (hleft other tx' htx').2
  · exact fun other tx' htx' => h.consistent other tx' (hleft other tx' htx').2
  · intro other tx' row' htx' hrow'
    obtain ⟨hother, htx'⟩ := hleft other tx' htx'
    have hne := hothers other tx' hother htx' (by simp [hrow'])
    simp only [Tx.written, Function.update_of_ne hne]
    exact h.locked other tx' row' htx' hrow'
  · exact fun i j tx₁ tx₂ htx₁ htx₂ =>
      h.oneHolder i j tx₁ tx₂ (hleft i tx₁ htx₁).2 (hleft j tx₂ htx₂).2
  · intro emailHmac row' hrow'
    obtain ⟨before, hbefore, hserial, hexpires⟩ := hback emailHmac row' hrow'
    rw [hnewest, ← hserial, ← hexpires]
    exact h.known emailHmac before hbefore
  · intro emailHmac emailHmac' row₁ row₂ hrow₁ hrow₂ hsame
    obtain ⟨before₁, hbefore₁, hserial₁, -⟩ := hback emailHmac row₁ hrow₁
    obtain ⟨before₂, hbefore₂, hserial₂, -⟩ := hback emailHmac' row₂ hrow₂
    exact h.oneAddress _ _ _ _ hbefore₁ hbefore₂ (hserial₁.trans (hsame.trans hserial₂.symm))
  · refine ⟨hwrongs ▸ h.logged.1, ?_⟩
    obtain ⟨-, hlog⟩ | ⟨-, -, hlog⟩ := hsession
    · rw [hlog]
      exact h.logged.2
    · rw [hlog]
      intro serial hmem
      cases List.mem_cons.mp hmem with
      | inl heq => exact heq ▸ (h.known _ row hcode).1
      | inr hin => exact h.logged.2 serial hin
  · intro emailHmac row' hrow' hnone
    rw [hwrongs]
    by_cases heq : emailHmac = tx.request.emailHmac index
    · subst heq
      rw [hself row' hrow']
      have hstruck : tx.struck = tx.pending.strike := by
        cases hphase with
        | inl hreject => simp [Tx.struck, hreject]
        | inr hcommit => simp [Tx.struck, hcommit]
      cases hstrike : tx.pending.strike with
      | true =>
          rw [hstrike] at hstruck
          exact h.struck id tx row htx hrow hstruck
      | false =>
          apply h.counted _ row hcode
          intro other tx' htx' hstrikes
          by_cases hother : other = id
          · subst hother
            rw [htx] at htx'
            cases htx'
            rw [hstruck, hstrike] at hstrikes
            cases hstrikes
          · exact hothers other tx' hother htx' (h.row_of_struck htx' hstrikes)
    · apply h.counted emailHmac row' (hold emailHmac row' heq hrow')
      intro other tx' htx' hstrikes
      by_cases hother : other = id
      · subst hother
        rw [htx] at htx'
        cases htx'
        exact Ne.symm heq
      · exact hnone other tx' ((Function.update_of_ne hother _ _).trans htx') hstrikes
  · intro other tx' row' htx'
    rw [hwrongs]
    exact h.struck other tx' row' (hleft other tx' htx').2
  · intro serial
    rw [hwrongs]
    exact h.few serial
  · intro emailHmac row' hrow' hmem
    by_cases heq : emailHmac = tx.request.emailHmac index
    · subst heq
      rw [hself row' hrow'] at hmem ⊢
      obtain ⟨-, hlog⟩ | ⟨-, hvoid, -⟩ := hsession
      · rw [hlog] at hmem
        have hgone := h.spent _ row hcode hmem
        simp [hgone]
      · simp [hvoid]
    · have hbefore := hold emailHmac row' heq hrow'
      apply h.spent emailHmac row' hbefore
      obtain ⟨-, hlog⟩ | ⟨-, -, hlog⟩ := hsession
      · rwa [hlog] at hmem
      · rw [hlog] at hmem
        cases List.mem_cons.mp hmem with
        | inl hserial => exact absurd (h.oneAddress _ _ _ _ hbefore hcode hserial) heq
        | inr hin => exact hin
  · obtain ⟨-, hlog⟩ | ⟨husable, -, hlog⟩ := hsession
    · rw [hlog]
      exact h.once
    · rw [hlog]
      refine List.nodup_cons.mpr ⟨?_, h.once⟩
      intro hmem
      have hgone := h.spent _ row hcode hmem
      rw [husable.right] at hgone
      cases hgone
  · obtain ⟨-, hlog⟩ | ⟨husable, -, hlog⟩ := hsession
    · rw [hlog]
      exact h.timely
    · rw [hlog]
      exact ⟨⟨row.expires, (h.known _ row hcode).2, husable.early⟩, h.timely⟩

theorem step (h : Accounted index w) {event : Event} (hstep : w.step index event = some w') :
    Accounted index w' := by
  cases event with
  | tick seconds =>
      cases hstep
      exact h.frame rfl (fun _ _ htx => htx) (fun _ _ htx _ => htx) rfl rfl rfl
  | storeCode email code now =>
      obtain ⟨hfree, rfl⟩ := World.step_storeCode hstep
      exact h.storeCode hfree rfl rfl
  | forgetCode email now =>
      obtain ⟨hfree, rfl⟩ := World.step_forgetCode hstep
      exact h.forgetCode hfree
  | createInvite code createdBy now ttl =>
      obtain ⟨-, rfl⟩ := World.step_createInvite hstep
      exact h.frame rfl (fun _ _ htx => htx) (fun _ _ htx _ => htx) rfl rfl rfl
  | begin request =>
      cases hstep
      refine h.advance (Nat.lt_succ_self _) (Nat.le_succ _) ⟨rfl, rfl, rfl⟩ ?_ ?_
      · intro row hrow
        cases hrow
      · intro tx htx _
        exact absurd (h.begun _ tx htx) (Nat.lt_irrefl _)
  | statement id fresh =>
      obtain ⟨tx, htx, ⟨hphase, rfl⟩ | ⟨next, hnext, rfl⟩⟩ := World.step_statement hstep
      · cases hrow : tx.row with
        | some row => exact h.commit_locked htx hphase hrow
        | none =>
            cases hphase with
            | inl hreject => exact h.commit_unlocked htx hreject hrow
            | inr hcommit =>
                have hconsistent := h.consistent id tx htx
                rw [Tx.CodeConsistent, hcommit, hrow] at hconsistent
                obtain ⟨⟨row, hnone, -⟩, -⟩ := hconsistent
                cases hnone
      · have hconsistent := h.consistent id tx htx
        have hid := h.begun id tx htx
        cases Tx.statement_row hconsistent hnext with
        | inl hsame =>
            obtain ⟨hrequest, hrow, hstruck, hnote⟩ := hsame
            rw [hnote]
            refine h.advance hid (Nat.le_refl _) (hconsistent.statement hnext) ?_ ?_
            · intro row hmine
              exact ⟨tx, htx, hrow.symm.trans hmine, hrequest.symm, hstruck.symm⟩
            · intro tx' htx' hstrikes
              rw [htx] at htx'
              cases htx'
              exact ⟨hstruck.trans hstrikes, hrequest.symm⟩
        | inr hcheck =>
            obtain ⟨hrequest, hphase, hfree, row, hrow, hcode, hnote⟩ := hcheck
            rw [← hrequest] at hfree hcode
            refine h.acquire hid ?_ (hconsistent.statement hnext) hrow hcode hfree ?_
            · intro tx' htx'
              rw [htx] at htx'
              cases htx'
              rw [Tx.CodeConsistent, hphase] at hconsistent
              simp [Tx.struck, hphase, hconsistent.2.1]
            · exact hnote
  | fail id =>
      obtain ⟨tx, htx, hvoid, hstrike, hreject, rfl⟩ := World.step_fail hstep
      refine h.frame rfl ?_ ?_ rfl rfl rfl
      · intro other tx' htx'
        obtain ⟨-, hnone⟩ | ⟨-, hold⟩ := World.update_some htx'
        · cases hnone
        · exact hold
      · intro other tx' htx' hstruck
        have hne : other ≠ id := by
          rintro rfl
          rw [htx] at htx'
          cases htx'
          have hconsistent := h.consistent other tx htx
          unfold Tx.CodeConsistent at hconsistent
          unfold Tx.struck at hstruck
          grind
        exact (Function.update_of_ne hne _ _).trans htx'

end Accounted

/-- The statements of an open transaction leave the committed rows alone; only
its commit writes them. -/
theorem World.statement_db {w w' : World H} {id : Nat} {fresh : String} {tx : Tx H}
    (htx : w.txs id = some tx) (hphase : tx.phase ≠ .reject ∧ tx.phase ≠ .commit)
    (hstep : w.step index (.statement id fresh) = some w') : w'.db = w.db := by
  obtain ⟨tx', htx', ⟨hend, -⟩ | ⟨next, -, rfl⟩⟩ := World.step_statement hstep
  · rw [htx] at htx'
    cases htx'
    exact absurd hend (not_or.mpr hphase)
  · rfl

theorem Timely.of_split {post pre : List (Entry H)} {emailHmac : H} {serial now clock : Nat}
    (h : Timely (post ++ .session emailHmac serial now clock :: pre)) :
    ∃ expires, newest emailHmac pre = some (serial, expires) ∧ now < expires := by
  induction post with
  | nil => exact h.1
  | cons entry rest ih =>
      cases entry with
      | stored address number expires => exact ih h
      | wrong number => exact ih h
      | session address number time clock => exact ih h.2

/-- In every run: a code is compared with at most five wrong guesses, and is
traded for at most one session; the session is for a request that came before
the code's expiry and before a newer code replaced it; and a sign-in that fails
after a right code has changed no row, and leaves the code as usable as it was. -/
theorem code_is_one_time {w : World H}
    (h : Runs.Reaches (World.step index) Runs.anything .start w) :
    (∀ serial, (wrongs w.log).count serial ≤ 5) ∧
    (sessions w.log).Nodup ∧
    (∀ post pre emailHmac serial now clock,
      w.log = post ++ .session emailHmac serial now clock :: pre →
      ∃ expires, newest emailHmac pre = some (serial, expires) ∧ now < expires) ∧
    (∀ id fresh tx w', w.txs id = some tx → tx.phase ≠ .reject ∧ tx.phase ≠ .commit →
      w.step index (.statement id fresh) = some w' → w'.db = w.db) ∧
    (∀ id tx w', w.txs id = some tx → tx.matched = true → w.step index (.fail id) = some w' →
      w'.db = w.db ∧ ∃ row, tx.row = some row ∧
        w'.db.codes (tx.request.emailHmac index) = some row ∧ row.Usable index tx.request) := by
  have hacc : Accounted index w :=
    h.invariant Accounted.start (fun _ _ _ hacc _ hstep => hacc.step hstep)
  refine ⟨hacc.few, hacc.once, ?_, ?_, ?_⟩
  · intro post pre emailHmac serial now clock hlog
    exact (hlog ▸ hacc.timely).of_split
  · intro id fresh tx w' htx hphase hstep
    exact World.statement_db htx hphase hstep
  · intro id tx w' htx hmatched hstep
    obtain ⟨tx', -, -, -, -, rfl⟩ := World.step_fail hstep
    refine ⟨rfl, ?_⟩
    have hconsistent := hacc.consistent id tx htx
    obtain ⟨row, hrow, husable⟩ : ∃ row, tx.row = some row ∧ row.Usable index tx.request := by
      unfold Tx.CodeConsistent at hconsistent
      unfold Tx.matched at hmatched
      grind
    exact ⟨row, hrow, hacc.locked id tx row htx hrow, husable⟩

end

/-- A request of an address with a guess, from a browser. -/
def guess (code : String) : Verify :=
  ⟨"a@x.org", code, none, "device", "Browser", "browser", 0⟩

/-- The log at the end of a run. -/
def logOf (events : List Event) : Option (List (Entry (String × String))) :=
  (Runs.run (World.step Prod.mk) (fun _ _ => true) .start events).map (·.log)

/-- A wrong guess, then the right one. -/
def secondGuess : List Event :=
  [.storeCode "a@x.org" "123456" 0, .begin (guess "654321")] ++
  List.replicate 3 (.statement 0 "") ++ [.begin (guess "123456")] ++
  List.replicate 9 (.statement 1 "u1")

theorem secondGuess_is_one_time : ∃ w : World (String × String),
    Runs.Reaches (World.step Prod.mk) Runs.anything .start w ∧
      wrongs w.log = [0] ∧ sessions w.log = [0] ∧ (sessions w.log).Nodup := by
  have hrun : logOf secondGuess = some [.session ("email", "a@x.org") 0 0 0, .wrong 0,
      .stored ("email", "a@x.org") 0 600] := by decide +kernel
  obtain ⟨w, hw, hlog⟩ := Option.map_eq_some_iff.mp hrun
  have hreach : Runs.Reaches (World.step Prod.mk) Runs.anything .start w :=
    Runs.Reaches.start.run (fun _ _ _ => trivial) hw
  refine ⟨w, hreach, ?_, ?_, (code_is_one_time hreach).2.1⟩ <;> rw [hlog] <;> rfl

/-- The right guess comes in a second before the expiry, and its transaction
commits after it. -/
def lateCommit : List Event :=
  [.storeCode "a@x.org" "123456" 0, .tick 599, .begin (guess "123456"), .tick 10] ++
  List.replicate 9 (.statement 0 "u1")

theorem session_after_expiry : ¬∀ w : World (String × String),
    Runs.Reaches (World.step Prod.mk) Runs.anything .start w →
    ∀ post pre emailHmac serial now clock,
      w.log = post ++ .session emailHmac serial now clock :: pre →
      ∃ expires, newest emailHmac pre = some (serial, expires) ∧ clock < expires := by
  intro hclaim
  have hrun : logOf lateCommit = some [.session ("email", "a@x.org") 0 599 609,
      .stored ("email", "a@x.org") 0 600] := by decide +kernel
  obtain ⟨w, hw, hlog⟩ := Option.map_eq_some_iff.mp hrun
  obtain ⟨expires, hnewest, hclock⟩ := hclaim w
    (Runs.Reaches.start.run (fun _ _ _ => trivial) hw) [] _ _ _ _ _ hlog
  cases hnewest
  exact absurd hclock (by decide)

end ObSink.Server.Signin
