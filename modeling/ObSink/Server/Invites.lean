import Mathlib.Data.List.Nodup
import ObSink.Server.Signin

/-! # Accounts and invites

The first account of a server needs no invite, every later one must redeem an
unused, unexpired code (`server/src/auth/invites.rs`). Two sign-ins that share
no locked row can both find no account; as long as that does not happen, the
rule holds in every committed state.
-/

namespace ObSink.Server.Signin

variable {H : Type}

/-! ## One transaction -/

section

variable [DecidableEq H] (index : String → String → H)

/-- `authorize_signup` let the transaction create an account: there was none
yet, or it holds a usable invite. -/
def Tx.Admitted (tx : Tx H) : Prop :=
  tx.openSignup = true ∧ tx.invite = none ∨
  tx.openSignup = false ∧ ∃ code row, tx.invite = some (code, row) ∧
    row.usable tx.request.now = true

/-- The transaction creates the account it was admitted for. -/
def Tx.NewUser (tx : Tx H) : Prop :=
  tx.Admitted ∧ tx.pending.user = some
    ⟨tx.userId, tx.request.emailHmac index, tx.request.now, tx.invite.map (·.1)⟩

/-- The transaction has nothing to do with signup (so far). -/
def Tx.NoSignup (tx : Tx H) : Prop :=
  tx.openSignup = false ∧ tx.invite = none ∧ tx.pending.user = none ∧ tx.pending.used = false

/-- What a transaction has done about signup, by the statement it comes to. -/
def Tx.Consistent (tx : Tx H) : Prop :=
  match tx.phase with
  | .check | .void | .strike | .reject | .findUser | .count | .redeem => tx.NoSignup
  | .insert => tx.pending.user = none ∧ tx.pending.used = false ∧ tx.Admitted
  | .markUsed => tx.NewUser index ∧ tx.openSignup = false
  | .device | .dropSession | .session | .consume | .commit =>
      tx.NoSignup ∨ tx.NewUser index ∧ tx.pending.used = tx.invite.isSome
  | .failed => tx.openSignup = true → tx.invite = none

variable {index} {db : Db H} {held : Held H} {fresh : String} {tx next : Tx H}

theorem Tx.Consistent.statement (h : tx.Consistent index)
    (hnext : tx.statement index db held fresh = some next) : next.Consistent index := by
  unfold Tx.statement at hnext
  cases hphase : tx.phase <;> simp only [hphase, Tx.Consistent] at h hnext <;>
    grind [Tx.Consistent, Tx.NoSignup, Tx.NewUser, Tx.Admitted]

/-- Signup is found open only by counting no account. -/
theorem Tx.statement_openSignup (hnext : tx.statement index db held fresh = some next)
    (hopen : next.openSignup = true) :
    tx.openSignup = true ∨ tx.phase = .count ∧ db.users = [] := by
  unfold Tx.statement at hnext
  grind

/-- An invite is locked as it is committed, when nobody else has locked it. -/
theorem Tx.statement_invite (hnext : tx.statement index db held fresh = some next)
    {code : String} {row : InviteRow} (hinvite : next.invite = some (code, row)) :
    tx.invite = some (code, row) ∨
      tx.phase = .redeem ∧ held.invite code = false ∧ db.invites code = some row := by
  unfold Tx.statement at hnext
  grind

/-- An invite is asked for only when there is an account. -/
theorem Tx.statement_redeem (hnext : tx.statement index db held fresh = some next)
    (hredeem : next.phase = .redeem) : db.users ≠ [] := by
  unfold Tx.statement at hnext
  grind

/-! ## Every world -/

variable (index) in
/-- The open transactions and the committed accounts agree on who needs an
invite and who has which. -/
structure Gated (w : World H) : Prop where
  begun : ∀ id tx, w.txs id = some tx → id < w.begun
  consistent : ∀ id tx, w.txs id = some tx → tx.Consistent index
  locked : ∀ id tx code row, w.txs id = some tx → tx.invite = some (code, row) →
    w.db.invites code = some row
  oneHolder : ∀ i j tx tx' code row row', w.txs i = some tx → w.txs j = some tx' →
    tx.invite = some (code, row) → tx'.invite = some (code, row') → i = j
  oneFirst : ∀ i j tx tx', w.txs i = some tx → w.txs j = some tx' →
    tx.openSignup = true → tx'.openSignup = true → i = j
  noAccount : ∀ id tx, w.txs id = some tx → tx.openSignup = true → w.db.users = []
  someAccount : ∀ id tx, w.txs id = some tx → tx.phase = .redeem ∨ tx.invite.isSome = true →
    w.db.users ≠ []
  redeemed : ∀ user ∈ w.db.users, ∀ code, user.via = some code →
    ∃ row, w.db.invites code = some row ∧ row.usedBy = some user.id ∧ row.usedAt.isSome = true ∧
      user.created < row.expires
  once : (w.db.users.filterMap (·.via)).Nodup
  first : (w.db.users.filter (·.via.isNone)).length ≤ 1

/-- A sign-in that counts no account does so while no other open sign-in has
counted none. -/
def World.firstAlone (w : World H) : Event → Bool
  | .statement id _ =>
      !((w.txs id).any (·.phase = .count) && w.db.users.isEmpty && w.anyOther id (·.openSignup))
  | _ => true

namespace Gated

variable {w w' : World H}

omit [DecidableEq H] in
theorem start : Gated index (World.start : World H) := by
  constructor <;> simp [World.start, Db.empty]

omit [DecidableEq H] in
/-- A step that at most drops transactions and adds invites. -/
theorem frame (h : Gated index w) (hbegun : w'.begun = w.begun)
    (htxs : ∀ id tx, w'.txs id = some tx → w.txs id = some tx) (husers : w'.db.users = w.db.users)
    (hinvites : ∀ code row, w.db.invites code = some row → w'.db.invites code = some row) :
    Gated index w' where
  begun := fun id tx htx => hbegun ▸ h.begun id tx (htxs id tx htx)
  consistent := fun id tx htx => h.consistent id tx (htxs id tx htx)
  locked := fun id tx code row htx hinvite =>
    hinvites code row (h.locked id tx code row (htxs id tx htx) hinvite)
  oneHolder := fun i j tx tx' code row row' htx htx' =>
    h.oneHolder i j tx tx' code row row' (htxs i tx htx) (htxs j tx' htx')
  oneFirst := fun i j tx tx' htx htx' => h.oneFirst i j tx tx' (htxs i tx htx) (htxs j tx' htx')
  noAccount := fun id tx htx => husers ▸ h.noAccount id tx (htxs id tx htx)
  someAccount := fun id tx htx => husers ▸ h.someAccount id tx (htxs id tx htx)
  redeemed := by
    intro user huser code hvia
    obtain ⟨row, hrow, hused⟩ := h.redeemed user (husers ▸ huser) code hvia
    exact ⟨row, hinvites code row hrow, hused⟩
  once := husers ▸ h.once
  first := husers ▸ h.first

omit [DecidableEq H] in
theorem drop (h : Gated index w) (id : Nat) :
    Gated index { w with txs := Function.update w.txs id none } := by
  refine h.frame rfl ?_ rfl (fun _ _ hrow => hrow)
  intro other tx htx
  obtain ⟨-, hnone⟩ | ⟨-, hold⟩ := World.update_some htx
  · cases hnone
  · exact hold

omit [DecidableEq H] in
/-- One transaction goes on. -/
theorem put (h : Gated index w) {id begun : Nat} (hid : id < begun) (hbegun : w.begun ≤ begun)
    {next : Tx H} {log : List (Entry H)} (hconsistent : next.Consistent index)
    (hlocked : ∀ code row, next.invite = some (code, row) → w.db.invites code = some row ∧
      ∀ other tx row', other ≠ id → w.txs other = some tx → tx.invite ≠ some (code, row'))
    (hopen : next.openSignup = true → w.db.users = [] ∧
      ∀ other tx, other ≠ id → w.txs other = some tx → tx.openSignup = false)
    (hsome : next.phase = .redeem ∨ next.invite.isSome = true → w.db.users ≠ []) :
    Gated index { w with
      txs := Function.update w.txs id (some next)
      begun := begun
      log := log } := by
  constructor
  · intro other tx htx
    obtain ⟨heq, -⟩ | ⟨-, hold⟩ := World.update_some htx
    · exact heq ▸ hid
    · exact Nat.lt_of_lt_of_le (h.begun other tx hold) hbegun
  · intro other tx htx
    obtain ⟨-, heq⟩ | ⟨-, hold⟩ := World.update_some htx
    · exact Option.some.inj heq ▸ hconsistent
    · exact h.consistent other tx hold
  · intro other tx code row htx hinvite
    obtain ⟨-, heq⟩ | ⟨-, hold⟩ := World.update_some htx
    · exact (hlocked code row (Option.some.inj heq ▸ hinvite)).1
    · exact h.locked other tx code row hold hinvite
  · -- of two holders of an invite one is the transaction that goes on
    intro i j tx tx' code row row' htx htx' hinvite hinvite'
    obtain ⟨hi, heq⟩ | ⟨hi, hold⟩ := World.update_some htx
    · obtain ⟨hj, -⟩ | ⟨hj, hold'⟩ := World.update_some htx'
      · rw [hi, hj]
      · exact absurd hinvite'
          ((hlocked code row (Option.some.inj heq ▸ hinvite)).2 j tx' row' hj hold')
    · obtain ⟨hj, heq'⟩ | ⟨hj, hold'⟩ := World.update_some htx'
      · exact absurd hinvite
          ((hlocked code row' (Option.some.inj heq' ▸ hinvite')).2 i tx row hi hold)
      · exact h.oneHolder i j tx tx' code row row' hold hold' hinvite hinvite'
  · -- likewise for the open first sign-up
    intro i j tx tx' htx htx' hfirst hfirst'
    obtain ⟨hi, heq⟩ | ⟨hi, hold⟩ := World.update_some htx
    · obtain ⟨hj, -⟩ | ⟨hj, hold'⟩ := World.update_some htx'
      · rw [hi, hj]
      · have hclosed := (hopen (Option.some.inj heq ▸ hfirst)).2 j tx' hj hold'
        rw [hclosed] at hfirst'
        cases hfirst'
    · obtain ⟨hj, heq'⟩ | ⟨hj, hold'⟩ := World.update_some htx'
      · have hclosed := (hopen (Option.some.inj heq' ▸ hfirst')).2 i tx hi hold
        rw [hclosed] at hfirst
        cases hfirst
      · exact h.oneFirst i j tx tx' hold hold' hfirst hfirst'
  · intro other tx htx hfirst
    obtain ⟨-, heq⟩ | ⟨-, hold⟩ := World.update_some htx
    · exact (hopen (Option.some.inj heq ▸ hfirst)).1
    · exact h.noAccount other tx hold hfirst
  · intro other tx htx hneeds
    obtain ⟨-, heq⟩ | ⟨-, hold⟩ := World.update_some htx
    · exact hsome (Option.some.inj heq ▸ hneeds)
    · exact h.someAccount other tx hold hneeds
  · exact h.redeemed
  · exact h.once
  · exact h.first

theorem statement (h : Gated index w) {id : Nat} {tx next : Tx H} (htx : w.txs id = some tx)
    {fresh : String} (hok : w.firstAlone (.statement id fresh) = true)
    (hnext : tx.statement index w.db (w.held index id) fresh = some next) {log : List (Entry H)} :
    Gated index { w with txs := Function.update w.txs id (some next), log := log } := by
  have hid := h.begun id tx htx
  refine h.put hid (Nat.le_refl _) ((h.consistent id tx htx).statement hnext) ?_ ?_ ?_
  · intro code row hinvite
    cases Tx.statement_invite hnext hinvite with
    | inl hold =>
        refine ⟨h.locked id tx code row htx hold, ?_⟩
        intro other tx' row' hother htx' hinvite'
        exact hother (h.oneHolder other id tx' tx code row' row htx' htx hinvite' hold)
    | inr hnew =>
        obtain ⟨-, hfree, hrow⟩ := hnew
        refine ⟨hrow, ?_⟩
        intro other tx' row' hother htx' hinvite'
        have hlocks := World.anyOther_eq_false hfree hother (h.begun other tx' htx') htx'
        simp [Tx.locksInvite, hinvite'] at hlocks
  · intro hopen
    cases Tx.statement_openSignup hnext hopen with
    | inl hold =>
        refine ⟨h.noAccount id tx htx hold, ?_⟩
        intro other tx' hother htx'
        cases hfirst : tx'.openSignup with
        | false => rfl
        | true => exact absurd (h.oneFirst other id tx' tx htx' htx hfirst hold) hother
    | inr hnew =>
        obtain ⟨hphase, hnone⟩ := hnew
        refine ⟨hnone, ?_⟩
        intro other tx' hother htx'
        apply World.anyOther_eq_false _ hother (h.begun other tx' htx') htx'
        simpa [World.firstAlone, htx, hphase, hnone] using hok
  · intro hneeds
    cases hneeds with
    | inl hredeem => exact Tx.statement_redeem hnext hredeem
    | inr hinvite =>
        obtain ⟨⟨code, row⟩, hinvite⟩ := Option.isSome_iff_exists.mp hinvite
        cases Tx.statement_invite hnext hinvite with
        | inl hold => exact h.someAccount id tx htx (Or.inr (by simp [hold]))
        | inr hnew => exact h.someAccount id tx htx (Or.inl hnew.1)

/-- A transaction that creates no account ends. -/
theorem commit_noSignup (h : Gated index w) {id : Nat} {tx : Tx H} (hno : tx.NoSignup)
    {log : List (Entry H)} :
    Gated index { w with
      db := tx.written index w.db
      txs := Function.update w.txs id none
      log := log } := by
  obtain ⟨-, hinvite, huser, -⟩ := hno
  refine h.frame rfl ?_ ?_ ?_
  · intro other tx' htx'
    obtain ⟨-, hnone⟩ | ⟨-, hold⟩ := World.update_some htx'
    · cases hnone
    · exact hold
  · simp [Tx.written, huser]
  · intro code row hrow
    simp only [Tx.written, hinvite]
    exact hrow

/-- The committed rows of a transaction that creates an account. -/
theorem commit_newUser (h : Gated index w) {id : Nat} {tx : Tx H} (htx : w.txs id = some tx)
    (hnew : tx.NewUser index) (hused : tx.pending.used = tx.invite.isSome)
    {log : List (Entry H)} :
    Gated index { w with
      db := tx.written index w.db
      txs := Function.update w.txs id none
      log := log } := by
  obtain ⟨hadmitted, huser⟩ := hnew
  have hleft : ∀ other tx', Function.update w.txs id none other = some tx' →
      other ≠ id ∧ w.txs other = some tx' := by
    intro other tx' htx'
    obtain ⟨-, hnone⟩ | hold := World.update_some htx'
    · cases hnone
    · exact hold
  have husers : (tx.written index w.db).users = w.db.users ++
      [⟨tx.userId, tx.request.emailHmac index, tx.request.now, tx.invite.map (·.1)⟩] := by
    simp [Tx.written, huser]
  -- No other open transaction has found the server without an account.
  have hclosed : ∀ other tx', other ≠ id → w.txs other = some tx' → tx'.openSignup = false := by
    intro other tx' hother htx'
    cases hfirst : tx'.openSignup with
    | false => rfl
    | true =>
        obtain ⟨hopen, -⟩ | ⟨-, code, row, hinvite, -⟩ := hadmitted
        · exact absurd (h.oneFirst other id tx' tx htx' htx hfirst hopen) hother
        · have hnone := h.noAccount other tx' htx' hfirst
          exact absurd hnone (h.someAccount id tx htx (Or.inr (by simp [hinvite])))
  -- An invite in use is another one than the transaction's.
  have hothers : ∀ code row, w.db.invites code = some row →
      (∀ mine row', tx.invite = some (mine, row') → code ≠ mine) →
      (tx.written index w.db).invites code = some row := by
    intro code row hrow hne
    cases hinvite : tx.invite with
    | none =>
        simp only [Tx.written, hinvite]
        exact hrow
    | some pair =>
        obtain ⟨mine, row'⟩ := pair
        simp only [Tx.written, hinvite, hused, Option.isSome_some]
        rw [Function.update_of_ne (hne mine row' hinvite)]
        exact hrow
  -- The transaction's invite was unused until now.
  have hunused : ∀ mine row, tx.invite = some (mine, row) → ∀ user ∈ w.db.users,
      user.via ≠ some mine := by
    intro mine row hinvite user hmem hvia
    obtain ⟨-, hnone⟩ | ⟨-, code, row₀, hmine, husable⟩ := hadmitted
    · rw [hinvite] at hnone
      cases hnone
    · obtain ⟨row', hrow', -, hat, -⟩ := h.redeemed user hmem mine hvia
      rw [hinvite] at hmine
      cases hmine
      rw [h.locked id tx mine row htx hinvite] at hrow'
      cases hrow'
      simp only [InviteRow.usable, Bool.and_eq_true, Option.isNone_iff_eq_none] at husable
      rw [husable.1.2] at hat
      cases hat
  constructor
  · intro other tx' htx'
    exact h.begun other tx' (hleft other tx' htx').2
  · intro other tx' htx'
    exact h.consistent other tx' (hleft other tx' htx').2
  · intro other tx' code row htx' hinvite
    obtain ⟨hother, hold⟩ := hleft other tx' htx'
    apply hothers code row (h.locked other tx' code row hold hinvite)
    rintro mine row' hmine rfl
    exact hother (h.oneHolder other id tx' tx code row row' hold htx hinvite hmine)
  · intro i j tx₁ tx₂ code row row' htx₁ htx₂
    exact h.oneHolder i j tx₁ tx₂ code row row' (hleft i tx₁ htx₁).2 (hleft j tx₂ htx₂).2
  · intro i j tx₁ tx₂ htx₁ htx₂
    exact h.oneFirst i j tx₁ tx₂ (hleft i tx₁ htx₁).2 (hleft j tx₂ htx₂).2
  · intro other tx' htx' hfirst
    obtain ⟨hother, hold⟩ := hleft other tx' htx'
    rw [hclosed other tx' hother hold] at hfirst
    cases hfirst
  · intro other tx' _ _
    rw [husers]
    simp
  · intro user hmem code hvia
    rw [husers, List.mem_append, List.mem_singleton] at hmem
    cases hmem with
    | inl hold =>
        obtain ⟨row, hrow, hrest⟩ := h.redeemed user hold code hvia
        refine ⟨row, hothers code row hrow ?_, hrest⟩
        rintro mine row' hmine rfl
        exact hunused code row' hmine user hold hvia
    | inr hnew =>
        subst hnew
        obtain ⟨-, hnone⟩ | ⟨-, mine, row, hinvite, husable⟩ := hadmitted
        · simp [hnone] at hvia
        · simp only [hinvite, Option.map_some, Option.some_inj] at hvia
          subst hvia
          have hrow := h.locked id tx mine row htx hinvite
          refine ⟨{ row with usedBy := some tx.userId, usedAt := some tx.request.now }, ?_, rfl,
            rfl, ?_⟩
          · simp only [Tx.written, hinvite, hused, Option.isSome_some, Function.update_self, hrow,
              Option.map_some]
          · simp only [InviteRow.usable, Bool.and_eq_true, decide_eq_true_eq] at husable
            exact husable.2
  · rw [husers, List.filterMap_append]
    cases hinvite : tx.invite with
    | none => simpa using h.once
    | some pair =>
        obtain ⟨mine, row⟩ := pair
        rw [List.nodup_append']
        refine ⟨h.once, by simp, ?_⟩
        simp only [List.filterMap_cons, List.filterMap_nil, Option.map_some,
          List.disjoint_singleton, List.mem_filterMap, not_exists, not_and]
        exact hunused mine row hinvite
  · rw [husers, List.filter_append]
    obtain ⟨hopen, hnone⟩ | ⟨-, mine, row, hinvite, -⟩ := hadmitted
    · rw [h.noAccount id tx htx hopen]
      simp [hnone]
    · simpa [hinvite] using h.first

theorem step (h : Gated index w) {event : Event} (hok : w.firstAlone event = true)
    (hstep : w.step index event = some w') : Gated index w' := by
  cases event with
  | tick seconds =>
      cases hstep
      exact h.frame rfl (fun _ _ htx => htx) rfl (fun _ _ hrow => hrow)
  | storeCode email code now =>
      obtain ⟨-, rfl⟩ := World.step_storeCode hstep
      exact h.frame rfl (fun _ _ htx => htx) rfl (fun _ _ hrow => hrow)
  | forgetCode email now =>
      obtain ⟨-, rfl⟩ := World.step_forgetCode hstep
      exact h.frame rfl (fun _ _ htx => htx) rfl (fun _ _ hrow => hrow)
  | createInvite code createdBy now ttl =>
      obtain ⟨hnone, rfl⟩ := World.step_createInvite hstep
      refine h.frame rfl (fun _ _ htx => htx) rfl ?_
      intro other row hrow
      have hne : other ≠ code := by
        rintro rfl
        rw [hnone] at hrow
        cases hrow
      exact (Function.update_of_ne hne _ _).trans hrow
  | begin request =>
      cases hstep
      refine h.put (Nat.lt_succ_self _) (Nat.le_succ _) ⟨rfl, rfl, rfl, rfl⟩ ?_ ?_ ?_
      · intro code row hinvite
        cases hinvite
      · intro hopen
        cases hopen
      · intro hneeds
        rcases hneeds with hphase | hinvite
        · cases hphase
        · cases hinvite
  | statement id fresh =>
      obtain ⟨tx, htx, ⟨hphase, rfl⟩ | ⟨next, hnext, rfl⟩⟩ := World.step_statement hstep
      · have hconsistent := h.consistent id tx htx
        cases hphase with
        | inl hreject =>
            rw [Tx.Consistent, hreject] at hconsistent
            exact h.commit_noSignup hconsistent
        | inr hcommit =>
            rw [Tx.Consistent, hcommit] at hconsistent
            cases hconsistent with
            | inl hno => exact h.commit_noSignup hno
            | inr hnew => exact h.commit_newUser htx hnew.1 hnew.2
      · exact h.statement htx hok hnext
  | fail id =>
      obtain ⟨tx, -, -, -, -, rfl⟩ := World.step_fail hstep
      exact h.drop id

end Gated

/-- As long as no two open sign-ins have both found the server without an
account: at most one account was created without an invite, every other one
redeemed an invite that had not expired when it signed in, and no two the same. -/
theorem signup_is_gated {w : World H}
    (h : Runs.Reaches (World.step index) (fun w event => w.firstAlone event = true) .start w) :
    (w.db.users.filter (·.via.isNone)).length ≤ 1 ∧
    (∀ user ∈ w.db.users, ∀ code, user.via = some code →
      ∃ row, w.db.invites code = some row ∧ row.usedBy = some user.id ∧
        user.created < row.expires) ∧
    (w.db.users.filterMap (·.via)).Nodup := by
  have hgated : Gated index w :=
    h.invariant Gated.start (fun _ _ _ hgated hok hstep => hgated.step hok hstep)
  refine ⟨hgated.first, ?_, hgated.once⟩
  intro user hmem code hvia
  obtain ⟨row, hrow, hby, -, hexpires⟩ := hgated.redeemed user hmem code hvia
  exact ⟨row, hrow, hby, hexpires⟩

end

/-- A sign-in from a browser with the code `000000`. -/
def signIn (email : String) (inviteCode : Option String) : Verify :=
  ⟨email, "000000", inviteCode, "device", "Browser", "browser", 0⟩

def statements (id count : Nat) (fresh : String) : List Event :=
  List.replicate count (.statement id fresh)

/-- The accounts at the end of a run, with the invites they came by. -/
def accounts (test : World (String × String) → Event → Bool) (events : List Event) :
    Option (List (String × Option String)) :=
  (Runs.run (World.step Prod.mk) test .start events).map fun w =>
    w.db.users.map fun user => (user.id, user.via)

/-- The first account, an invite, and the account that redeems it. -/
def invited : List Event :=
  [.storeCode "a@x.org" "000000" 0, .begin (signIn "a@x.org" none)] ++ statements 0 9 "u1" ++
  [.createInvite "ABCDEFGH" (some "u1") 0 604800, .storeCode "b@x.org" "000000" 0,
    .begin (signIn "b@x.org" (some "abcd-efgh"))] ++ statements 1 11 "u2"

theorem invited_is_gated : ∃ w : World (String × String),
    Runs.Reaches (World.step Prod.mk) (fun w event => w.firstAlone event = true) .start w ∧
      w.db.users.map (fun user => (user.id, user.via)) = [("u1", none), ("u2", some "ABCDEFGH")] ∧
      (w.db.users.filter (·.via.isNone)).length ≤ 1 := by
  have hrun : accounts World.firstAlone invited =
      some [("u1", none), ("u2", some "ABCDEFGH")] := by decide +kernel
  obtain ⟨w, hw, husers⟩ := Option.map_eq_some_iff.mp hrun
  have hreach := Runs.Reaches.start.run (fun _ _ hok => hok) hw
  exact ⟨w, hreach, husers, (signup_is_gated hreach).1⟩

/-- Two addresses without an account: both sign-ins count before either
commits. -/
def together : List Event :=
  [.storeCode "a@x.org" "000000" 0, .storeCode "b@x.org" "000000" 0,
    .begin (signIn "a@x.org" none), .begin (signIn "b@x.org" none)] ++
  statements 0 3 "u1" ++ statements 1 3 "u2" ++ statements 0 6 "u1" ++ statements 1 6 "u2"

theorem together_need_no_invite : ¬∀ w : World (String × String),
    Runs.Reaches (World.step Prod.mk) Runs.anything .start w →
      (w.db.users.filter (·.via.isNone)).length ≤ 1 := by
  intro hclaim
  have hrun : accounts (fun _ _ => true) together = some [("u1", none), ("u2", none)] := by
    decide +kernel
  obtain ⟨w, hw, husers⟩ := Option.map_eq_some_iff.mp hrun
  have hfirst := hclaim w (Runs.Reaches.start.run (fun _ _ _ => trivial) hw)
  have hnone : ((w.db.users.map fun user => (user.id, user.via)).filter
      (fun account => account.2.isNone)).length ≤ 1 := by
    rw [List.filter_map, List.length_map]
    exact hfirst
  rw [husers] at hnone
  exact absurd hnone (by decide)

end ObSink.Server.Signin
