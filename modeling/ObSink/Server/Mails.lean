import ObSink.Server.Signin

/-! # Sign-in mails

`POST /auth/email/start` of `server/src/auth/email.rs`, for one address. A
request reads the clock, reads when the last code was sent, sends its mail and
stores its code, each on its own and without a lock; it may end at any of these
with an error, or because its client is gone. What it stores is the time it read
first. So the cooldown holds as long as nobody mails before the last code is
stored, and no mail is slower than the next one.
-/

namespace ObSink.Server.Mails

open Signin (CodeRow otpTtlSecs)

def otpResendCooldownSecs : Nat := 60

structure Config where
  smtp : Bool
  devReturnCode : Bool

def Config.canSendEmail (config : Config) : Bool := config.smtp || config.devReturnCode

/-- The await points of `start`. -/
inductive Phase where
  /-- Before the cooldown read. -/
  | reading
  /-- `lastSent` let the request through. -/
  | sending (lastSent : Option Nat) (code : String)
  | storing (code : String)
  deriving DecidableEq, Repr

structure Request where
  now : Nat
  phase : Phase
  deriving DecidableEq, Repr

/-- The mail is out, and its code is not stored yet. -/
def Request.mailed (request : Request) : Bool :=
  match request.phase with
  | .storing _ => true
  | _ => false

structure Mail where
  clock : Nat
  code : String
  deriving DecidableEq, Repr

variable {H : Type}

/-- The row of the address, the open requests by the order in which they came, and
the mails, newest first. -/
structure World (H : Type) where
  clock : Nat
  row : Option (CodeRow H)
  requests : Nat → Option Request
  begun : Nat
  mails : List Mail

/-- Any row may be there from before. -/
def World.start (clock : Nat) (row : Option (CodeRow H)) : World H :=
  ⟨clock, row, fun _ => none, 0, []⟩

inductive Event where
  | tick (seconds : Nat)
  | begin
  | read (id : Nat) (code : String)
  | send (id : Nat)
  | store (id : Nat)
  | lose (id : Nat)
  deriving DecidableEq, Repr

namespace World

/-- The row that `store_code` leaves; a row says which request stored it. -/
def storeCode (index : String → String → H) (email code : String) (now id : Nat) : CodeRow H :=
  ⟨some (index "otp" (email ++ ":" ++ code)), now + otpTtlSecs, 0, now, id⟩

def put (w : World H) (id : Nat) (request : Option Request) : World H :=
  { w with requests := Function.update w.requests id request }

def step (config : Config) (index : String → String → H) (email : String) (w : World H) :
    Event → Option (World H)
  | .tick seconds => some { w with clock := w.clock + seconds }
  | .begin =>
      if config.canSendEmail then
        some { w.put w.begun (some ⟨w.clock, .reading⟩) with begun := w.begun + 1 }
      else none
  | .read id code =>
      match w.requests id with
      | some ⟨now, .reading⟩ =>
          let lastSent := w.row.map (·.lastSent)
          if lastSent.any fun lastSent => now - lastSent < otpResendCooldownSecs then
            some (w.put id none)
          else if config.smtp then some (w.put id (some ⟨now, .sending lastSent code⟩))
          else some (w.put id (some ⟨now, .storing code⟩))
      | _ => none
  | .send id =>
      match w.requests id with
      | some ⟨now, .sending _ code⟩ =>
          some { w.put id (some ⟨now, .storing code⟩) with mails := ⟨w.clock, code⟩ :: w.mails }
      | _ => none
  | .store id =>
      match w.requests id with
      | some ⟨now, .storing code⟩ =>
          some { w.put id none with row := some (storeCode index email code now id) }
      | _ => none
  | .lose id =>
      match w.requests id with
      | some _ => some (w.put id none)
      | none => none

/-! ## What is promised -/

/-- Any two mails are a cooldown apart. -/
def Spaced (w : World H) : Prop :=
  w.mails.Pairwise fun later earlier => earlier.clock + otpResendCooldownSecs ≤ later.clock

/-- No mail is out whose code is not stored yet. -/
def Settled (w : World H) : Prop := ∀ id now code, w.requests id ≠ some ⟨now, .storing code⟩

/-- The code in the last mail is the one stored. -/
def Recorded (index : String → String → H) (email : String) (w : World H) : Prop :=
  ∀ mail ∈ w.mails.head?, ∃ row, w.row = some row ∧
    row.codeHmac = some (index "otp" (email ++ ":" ++ mail.code))

/-- A request sends its mail only if every code that was mailed is stored and no mail left later
after the time it read than its own leaves after `now`; and no request is lost between its mail
and its code. -/
def undisturbed (w : World H) : Event → Bool
  | .send id =>
      match w.requests id with
      | some ⟨now, .sending lastSent _⟩ =>
          ((List.range w.begun).all fun other => (w.requests other).all fun request =>
              !request.mailed) &&
            w.mails.all fun mail => lastSent.any fun lastSent =>
              mail.clock + now ≤ lastSent + w.clock
      | _ => true
  | .lose id => (w.requests id).all fun request => !request.mailed
  | _ => true

end World

/-! ## Every undisturbed run -/

theorem update_eq_some {requests : Nat → Option Request} {id other : Nat}
    {new : Option Request} {request : Request}
    (hrequest : Function.update requests id new other = some request) :
    other = id ∧ new = some request ∨ other ≠ id ∧ requests other = some request := by
  by_cases hother : other = id
  · subst hother
    rw [Function.update_self] at hrequest
    exact .inl ⟨rfl, hrequest⟩
  · rw [Function.update_of_ne hother] at hrequest
    exact .inr ⟨hother, hrequest⟩

/-- How the mails, the row and the requests that have mailed relate. -/
inductive Outbox (index : String → String → H) (email : String) (w : World H) : Prop where
  | unused (hmails : w.mails = []) (hsettled : w.Settled)
  /-- One request has mailed and is to store. -/
  | unstored {id now : Nat} {mail : Mail} {older : List Mail} (hmails : w.mails = mail :: older)
      (hrequest : w.requests id = some ⟨now, .storing mail.code⟩)
      (honly : ∀ {other now code}, w.requests other = some ⟨now, .storing code⟩ → other = id)
  | stored {mail : Mail} {older : List Mail} {row : CodeRow H} (hmails : w.mails = mail :: older)
      (hsettled : w.Settled) (hrow : w.row = some row)
      (hcode : row.codeHmac = some (index "otp" (email ++ ":" ++ mail.code)))

structure Orderly (index : String → String → H) (email : String) (w : World H) : Prop where
  fresh : ∀ {id request}, w.requests id = some request → id < w.begun ∧ request.now ≤ w.clock
  waited : ∀ {id now sent code}, w.requests id = some ⟨now, .sending (some sent) code⟩ →
    sent + otpResendCooldownSecs ≤ now
  spaced : w.Spaced
  outbox : Outbox index email w

namespace Orderly

variable {index : String → String → H} {email : String} {w : World H}

theorem recorded (h : Orderly index email w) (hsettled : w.Settled) :
    w.Recorded index email := by
  intro mail hmail
  obtain ⟨hmails, -⟩ | ⟨-, hrequest, -⟩ | ⟨hmails, -, hrow, hcode⟩ := h.outbox
  · rw [hmails] at hmail
    cases hmail
  · exact absurd hrequest (hsettled _ _ _)
  · rw [hmails] at hmail
    obtain rfl := Option.some.inj hmail
    exact ⟨_, hrow, hcode⟩

theorem start (clock : Nat) (row : Option (CodeRow H)) :
    Orderly index email (World.start clock row) where
  fresh := by
    intro id request hrequest
    cases hrequest
  waited := by
    intro id now sent code hrequest
    cases hrequest
  spaced := List.Pairwise.nil
  outbox := by
    refine .unused rfl ?_
    intro id now code hrequest
    cases hrequest

end Orderly

section

variable {index : String → String → H} {email : String} {w w' : World H}

/-- A step that neither mails nor stores. -/
theorem Outbox.frame (h : Outbox index email w) (hmails : w'.mails = w.mails)
    (hrow : w'.row = w.row)
    (hstoring : ∀ {id now code}, w'.requests id = some ⟨now, .storing code⟩ ↔
      w.requests id = some ⟨now, .storing code⟩) : Outbox index email w' := by
  have hsettles : w.Settled → w'.Settled := fun hsettled id now code hrequest =>
    hsettled id now code (hstoring.mp hrequest)
  cases h with
  | unused hnone hsettled => exact .unused (hmails.trans hnone) (hsettles hsettled)
  | unstored hhead hrequest honly =>
      refine .unstored (hmails.trans hhead) (hstoring.mpr hrequest) ?_
      intro other now code hother
      exact honly (hstoring.mp hother)
  | stored hhead hsettled hstored hcode =>
      exact .stored (hmails.trans hhead) (hsettles hsettled) (hrow.trans hstored) hcode

/-- A request is replaced by one that is not to store either. -/
theorem storing_put {id : Nat} {new : Option Request}
    (hold : ∀ {now code}, w.requests id ≠ some ⟨now, .storing code⟩)
    (hnew : ∀ {now code}, new ≠ some ⟨now, .storing code⟩) {other now : Nat} {code : String} :
    (w.put id new).requests other = some ⟨now, .storing code⟩ ↔
      w.requests other = some ⟨now, .storing code⟩ := by
  change Function.update w.requests id new other = _ ↔ _
  by_cases hother : other = id
  · subst hother
    rw [Function.update_self]
    exact iff_of_false hnew hold
  · rw [Function.update_of_ne hother]

namespace Orderly

theorem fresh_put (h : Orderly index email w) {id : Nat} {new : Option Request}
    (hnew : ∀ request, new = some request → id < w.begun ∧ request.now ≤ w.clock)
    {other : Nat} {request : Request} (hother : (w.put id new).requests other = some request) :
    other < w.begun ∧ request.now ≤ w.clock := by
  obtain ⟨rfl, hrequest⟩ | ⟨-, hold⟩ := update_eq_some hother
  · exact hnew request hrequest
  · exact h.fresh hold

theorem waited_put (h : Orderly index email w) {id : Nat} {new : Option Request}
    (hnew : ∀ {now sent code}, new = some ⟨now, .sending (some sent) code⟩ →
      sent + otpResendCooldownSecs ≤ now)
    {other now sent : Nat} {code : String}
    (hother : (w.put id new).requests other = some ⟨now, .sending (some sent) code⟩) :
    sent + otpResendCooldownSecs ≤ now := by
  obtain ⟨-, hrequest⟩ | ⟨-, hold⟩ := update_eq_some hother
  · exact hnew hrequest
  · exact h.waited hold

/-- A request ends before its mail. -/
theorem drop (h : Orderly index email w) {id now : Nat} {phase : Phase}
    (hrequest : w.requests id = some ⟨now, phase⟩) (hphase : ∀ code, phase ≠ .storing code) :
    Orderly index email (w.put id none) where
  fresh := h.fresh_put (by simp)
  waited := h.waited_put (by simp)
  spaced := h.spaced
  outbox := by
    refine h.outbox.frame rfl rfl (storing_put ?_ (by simp))
    intro now' code hstoring
    rw [hrequest] at hstoring
    obtain ⟨-, rfl⟩ := Request.mk.inj (Option.some.inj hstoring)
    exact hphase code rfl

theorem tick (h : Orderly index email w) (seconds : Nat) :
    Orderly index email { w with clock := w.clock + seconds } where
  fresh := by
    intro id request hrequest
    obtain ⟨hid, hnow⟩ := h.fresh hrequest
    exact ⟨hid, Nat.le_add_right_of_le hnow⟩
  waited := h.waited
  spaced := h.spaced
  outbox := h.outbox.frame rfl rfl Iff.rfl

theorem begin (h : Orderly index email w) :
    Orderly index email
      { w.put w.begun (some ⟨w.clock, .reading⟩) with begun := w.begun + 1 } where
  fresh := by
    intro id request hrequest
    obtain ⟨rfl, hnew⟩ | ⟨-, hold⟩ := update_eq_some hrequest
    · obtain rfl := Option.some.inj hnew
      exact ⟨Nat.lt_succ_self _, Nat.le_refl _⟩
    · exact ⟨Nat.lt_succ_of_lt (h.fresh hold).1, (h.fresh hold).2⟩
  waited := h.waited_put (by simp)
  spaced := h.spaced
  outbox := by
    refine h.outbox.frame rfl rfl (storing_put ?_ (by simp))
    intro now code hstoring
    exact Nat.lt_irrefl _ (h.fresh hstoring).1

/-- The cooldown lets a request through. -/
theorem letThrough (h : Orderly index email w) {id now : Nat}
    (hrequest : w.requests id = some ⟨now, .reading⟩) (code : String)
    (hcool : ∀ row, w.row = some row → row.lastSent + otpResendCooldownSecs ≤ now) :
    Orderly index email (w.put id (some ⟨now, .sending (w.row.map (·.lastSent)) code⟩)) where
  fresh := by
    apply h.fresh_put
    rintro request ⟨⟩
    obtain ⟨hid, hnow⟩ := h.fresh hrequest
    exact ⟨hid, hnow⟩
  waited := by
    apply h.waited_put
    intro now' sent code' hnew
    obtain ⟨rfl, hphase⟩ := Request.mk.inj (Option.some.inj hnew)
    obtain ⟨row, hrow, rfl⟩ := Option.map_eq_some_iff.mp (Phase.sending.inj hphase).1
    exact hcool row hrow
  spaced := h.spaced
  outbox := h.outbox.frame rfl rfl (storing_put (by simp [hrequest]) (by simp))

/-- A mail goes out when every code is stored, and none before it was slower. -/
theorem send (h : Orderly index email w) {id now : Nat} {lastSent : Option Nat} {code : String}
    (hrequest : w.requests id = some ⟨now, .sending lastSent code⟩) (hsettled : w.Settled)
    (hslower : ∀ mail ∈ w.mails, ∃ sent, lastSent = some sent ∧
      mail.clock + now ≤ sent + w.clock) :
    Orderly index email
      { w.put id (some ⟨now, .storing code⟩) with mails := ⟨w.clock, code⟩ :: w.mails } where
  fresh := by
    apply h.fresh_put
    rintro request ⟨⟩
    obtain ⟨hid, hnow⟩ := h.fresh hrequest
    exact ⟨hid, hnow⟩
  waited := h.waited_put (by simp)
  spaced := by
    refine List.Pairwise.cons ?_ h.spaced
    intro mail hmail
    obtain ⟨sent, rfl, hsent⟩ := hslower mail hmail
    have hwaited := h.waited hrequest
    simp only
    omega
  outbox := by
    refine .unstored rfl (Function.update_self ..) ?_
    intro other now' code' hother
    obtain ⟨rfl, -⟩ | ⟨-, hold⟩ := update_eq_some hother
    · rfl
    · exact absurd hold (hsettled _ _ _)

/-- The one request that has mailed stores its code. -/
theorem store (h : Orderly index email w) {id now : Nat} {code : String}
    (hrequest : w.requests id = some ⟨now, .storing code⟩) :
    Orderly index email
      { w.put id none with row := some (World.storeCode index email code now id) } where
  fresh := h.fresh_put (by simp)
  waited := h.waited_put (by simp)
  spaced := h.spaced
  outbox := by
    obtain ⟨-, hsettled⟩ | ⟨hmails, hmailed, honly⟩ | ⟨-, hsettled, -, -⟩ := h.outbox
    · exact absurd hrequest (hsettled _ _ _)
    · obtain rfl := honly hrequest
      rw [hrequest] at hmailed
      obtain ⟨-, hphase⟩ := Request.mk.inj (Option.some.inj hmailed)
      obtain rfl := Phase.storing.inj hphase
      refine .stored hmails ?_ rfl rfl
      intro other now' code' hother
      obtain ⟨-, hnone⟩ | ⟨hne, hold⟩ := update_eq_some hother
      · cases hnone
      · exact hne (honly hold)
    · exact absurd hrequest (hsettled _ _ _)

end Orderly

theorem Orderly.step {config : Config} (hsmtp : config.smtp = true) {event : Event}
    (h : Orderly index email w) (hok : w.undisturbed event = true)
    (hstep : w.step config index email event = some w') : Orderly index email w' := by
  cases event with
  | tick seconds =>
      obtain rfl := Option.some.inj hstep
      exact h.tick seconds
  | begin =>
      simp only [World.step] at hstep
      split at hstep
      next =>
        obtain rfl := Option.some.inj hstep
        exact h.begin
      next => cases hstep
  | read id code =>
      simp only [World.step, hsmtp, if_true] at hstep
      split at hstep
      next now hrequest =>
        split at hstep
        next =>
          obtain rfl := Option.some.inj hstep
          exact h.drop hrequest nofun
        next hcool =>
          obtain rfl := Option.some.inj hstep
          refine h.letThrough hrequest code ?_
          intro row hrow
          simp only [hrow, Option.map_some, Option.any_some, decide_eq_true_eq, Nat.not_lt] at hcool
          have hcooldown : 0 < otpResendCooldownSecs := by decide
          -- the stored code was sent a cooldown before the time this request read
          omega
      next => cases hstep
  | send id =>
      simp only [World.step] at hstep
      split at hstep
      next now lastSent code hrequest =>
        obtain rfl := Option.some.inj hstep
        simp only [World.undisturbed, hrequest, Bool.and_eq_true, List.all_eq_true,
          List.mem_range] at hok
        -- every code that was mailed is stored
        refine h.send hrequest ?_ ?_
        · intro other now' code' hother
          have hstored := hok.1 other (h.fresh hother).1
          simp [hother, Request.mailed] at hstored
        · intro mail hmail
          obtain ⟨sent, hsent, hslower⟩ := (Option.any_eq_true _ _).mp (hok.2 mail hmail)
          exact ⟨sent, hsent, of_decide_eq_true hslower⟩
      next => cases hstep
  | store id =>
      simp only [World.step] at hstep
      split at hstep
      next now code hrequest =>
        obtain rfl := Option.some.inj hstep
        exact h.store hrequest
      next => cases hstep
  | lose id =>
      simp only [World.step] at hstep
      split at hstep
      next request hrequest =>
        obtain rfl := Option.some.inj hstep
        obtain ⟨now, phase⟩ := request
        refine h.drop hrequest ?_
        rintro code rfl
        simp [World.undisturbed, hrequest, Request.mailed] at hok
      next => cases hstep

/-- A server without SMTP mails nothing. -/
structure Silent (w : World H) : Prop where
  mails : w.mails = []
  sending : ∀ id now lastSent code, w.requests id ≠ some ⟨now, .sending lastSent code⟩

theorem Silent.put (h : Silent w) {id : Nat} {new : Option Request}
    (hnew : ∀ now lastSent code, new ≠ some ⟨now, .sending lastSent code⟩) :
    Silent (w.put id new) where
  mails := h.mails
  sending := by
    intro other now lastSent code hother
    obtain ⟨-, hrequest⟩ | ⟨-, hold⟩ := update_eq_some hother
    · exact hnew _ _ _ hrequest
    · exact h.sending _ _ _ _ hold

theorem Silent.step {config : Config} (hsmtp : config.smtp = false) {event : Event}
    (h : Silent w) (hstep : w.step config index email event = some w') : Silent w' := by
  cases event with
  | tick seconds =>
      obtain rfl := Option.some.inj hstep
      exact ⟨h.mails, h.sending⟩
  | begin =>
      simp only [World.step] at hstep
      split at hstep
      next =>
        obtain rfl := Option.some.inj hstep
        have hput : Silent (w.put w.begun (some ⟨w.clock, .reading⟩)) := h.put (by simp)
        exact ⟨hput.mails, hput.sending⟩
      next => cases hstep
  | read id code =>
      simp only [World.step, hsmtp, Bool.false_eq_true, if_false] at hstep
      split at hstep
      next =>
        split at hstep <;> obtain rfl := Option.some.inj hstep <;> exact h.put (by simp)
      next => cases hstep
  | send id =>
      simp only [World.step] at hstep
      split at hstep
      next hrequest => exact absurd hrequest (h.sending _ _ _ _)
      next => cases hstep
  | store id =>
      simp only [World.step] at hstep
      split at hstep
      next =>
        obtain rfl := Option.some.inj hstep
        have hput : Silent (w.put id none) := h.put (by simp)
        exact ⟨hput.mails, hput.sending⟩
      next => cases hstep
  | lose id =>
      simp only [World.step] at hstep
      split at hstep
      next =>
        obtain rfl := Option.some.inj hstep
        exact h.put (by simp)
      next => cases hstep

end

/-- In every undisturbed run the mails keep the cooldown, and the code in the last of them is the
one stored. -/
theorem mails_keep_cooldown {config : Config} {index : String → String → H} {email : String}
    {clock : Nat} {row : Option (CodeRow H)} {w : World H}
    (hreach : Runs.Reaches (World.step config index email)
      (fun w event => w.undisturbed event = true) (World.start clock row) w) :
    w.Spaced ∧ (w.Settled → w.Recorded index email) := by
  cases hsmtp : config.smtp with
  | true =>
      have horderly : Orderly index email w :=
        hreach.invariant (Orderly.start clock row) fun _ _ _ h hok hstep => h.step hsmtp hok hstep
      exact ⟨horderly.spaced, horderly.recorded⟩
  | false =>
      have hsilent : Silent w :=
        hreach.invariant ⟨rfl, by simp [World.start]⟩ fun _ _ _ h _ hstep => h.step hsmtp hstep
      refine ⟨?_, ?_⟩
      · rw [World.Spaced, hsilent.mails]
        exact List.Pairwise.nil
      · intro _ mail hmail
        rw [hsilent.mails] at hmail
        cases hmail

/-! ## Runs -/

/-- The mails at the end of a run, and the code that is stored. -/
def endOf (test : World (String × String) → Event → Bool) (events : List Event) :
    Option (List Mail × Option (String × String)) :=
  (Runs.run (World.step ⟨true, false⟩ Prod.mk "a@x.org") test (World.start 0 none) events).map
    fun w => (w.mails, w.row.bind (·.codeHmac))

/-- The second request comes when the cooldown has run out. -/
def minuteLater : List Event :=
  [.begin, .read 0 "111111", .send 0, .store 0, .tick 60, .begin, .read 1 "222222", .send 1,
    .store 1]

theorem minuteLater_keeps_cooldown : ∃ w : World (String × String),
    w.mails = [⟨60, "222222"⟩, ⟨0, "111111"⟩] ∧ w.Spaced ∧
      (w.Settled → w.Recorded Prod.mk "a@x.org") := by
  have hrun : endOf World.undisturbed minuteLater =
      some ([⟨60, "222222"⟩, ⟨0, "111111"⟩], some ("otp", "a@x.org:222222")) := by decide
  obtain ⟨w, hw, hend⟩ := Option.map_eq_some_iff.mp hrun
  refine ⟨w, (Prod.mk.inj hend).1, ?_⟩
  exact mails_keep_cooldown (Runs.Reaches.start.run (fun _ _ htest => htest) hw)

/-- Two requests read before either stores, and the codes are stored the other way round. -/
def atOnce : List Event :=
  [.begin, .begin, .read 0 "111111", .read 1 "222222", .send 0, .send 1, .store 1, .store 0]

theorem atOnce_breaks_cooldown : ¬∀ w : World (String × String),
    Runs.Reaches (World.step ⟨true, false⟩ Prod.mk "a@x.org") Runs.anything (World.start 0 none) w →
      w.Spaced ∧ (w.Settled → w.Recorded Prod.mk "a@x.org") := by
  intro hclaim
  have hrun : endOf (fun _ _ => true) atOnce =
      some ([⟨0, "222222"⟩, ⟨0, "111111"⟩], some ("otp", "a@x.org:111111")) := by decide
  obtain ⟨w, hw, hend⟩ := Option.map_eq_some_iff.mp hrun
  have hspaced := (hclaim w (Runs.Reaches.start.run (fun _ _ _ => trivial) hw)).1
  rw [World.Spaced, (Prod.mk.inj hend).1] at hspaced
  exact absurd hspaced (by decide)

end ObSink.Server.Mails
