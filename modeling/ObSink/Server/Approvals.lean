import ObSink.Lib.Runs
import ObSink.Server.Account

/-! # Approving a device

A pending device registers a public key and polls; an approver reads that key
from `GET /auth/me`, wraps the account key to it and posts the blob
(`core/src/auth.rs`, `server/src/auth/approval.rs`). The post names the device
and not the key, so it can answer a request the approver never saw. As long as
no request is replaced under a post, every answer opens.
-/

namespace ObSink.Server.Account

variable {Byte : Type}

/-! ## Both sides and the server -/

/-- A live request as an approver read it. -/
structure Read (Byte : Type) where
  approver : String
  deviceId : String
  publicKey : List Byte
  deriving DecidableEq

/-- `POST /auth/devices/{device_id}/approval`, with the read it is based on. -/
structure Post (Byte : Type) where
  read : Read Byte
  wrapped : List Byte
  verifier : List Byte
  deriving DecidableEq

/-- `approve_with_key`, up to its request. -/
def approveWithKey (prim : Primitives Byte) (account : KeyBytes Byte) (userId : String)
    (read : Read Byte) (typed : String) (seed : KeyBytes Byte)
    (nonce : Sized Byte Aead.nonceLen) : Except ObSink.CryptoError (Post Byte) :=
  match prim.approveDevice account read.publicKey typed userId read.deviceId seed nonce with
  | .error error => .error error
  | .ok wrapped => .ok ⟨read, wrapped, (prim.accountVerifier account userId).1⟩

inductive AuthError where
  | server (status : Nat) (message : String)
  | crypto (error : ObSink.CryptoError)
  deriving DecidableEq, Repr

/-- `take_approved_key`, on the answer to its poll. -/
def takeApprovedKey (prim : Primitives Byte) (answer : Option (ApprovalStatus Byte))
    (request : ApprovalRequest Byte) (userId deviceId : String) :
    Except AuthError (Option (KeyBytes Byte × String)) :=
  match answer with
  | none => .ok none
  | some status =>
      match status.wrapped with
      | none => .ok none
      | some blob =>
          match status.keyId with
          | none => .error (.server 200 "the approval carries no key id")
          | some keyId =>
              match prim.acceptApproval request blob userId deviceId with
              | .error error => .error (.crypto error)
              | .ok key => .ok (some (key, keyId))

theorem takeApprovedKey_ok {prim : Primitives Byte} {answer : Option (ApprovalStatus Byte)}
    {request : ApprovalRequest Byte} {userId deviceId keyId : String} {key : KeyBytes Byte}
    (htake : takeApprovedKey prim answer request userId deviceId = .ok (some (key, keyId))) :
    ∃ status blob, answer = some status ∧ status.wrapped = some blob ∧
      status.keyId = some keyId ∧ prim.acceptApproval request blob userId deviceId = .ok key := by
  unfold takeApprovedKey at htake
  grind

/-- The rows, what approvers have read, and the posts they have made. A post
stays: it can come late, or again. -/
structure World (Byte : Type) where
  rows : Rows Byte
  reads : List (Read Byte)
  posts : List (Post Byte)

def World.start : World Byte := ⟨.start, [], []⟩

/-- One request reaches the server, or an approver takes its next step. -/
inductive Event (Byte : Type) where
  | set (body : SetKeysBody Byte) (keyId : String)
  | rewrap (body : SetKeysBody Byte)
  | signIn (deviceId : String)
  | revoke (deviceId : String)
  | register (deviceId : String) (publicKey : BodyField Byte) (now : Nat)
  | cancel (deviceId : String)
  | expire (now : Nat)
  /-- `GET /auth/me` shows `approver` the request of a device. -/
  | read (approver deviceId : String) (now : Nat)
  | wrap (read : Read Byte) (account : KeyBytes Byte) (typed : String) (seed : KeyBytes Byte)
      (nonce : Sized Byte Aead.nonceLen)
  | deliver (post : Post Byte) (now : Nat)

section

variable [DecidableEq Byte]

def Post.approve (post : Post Byte) (rows : Rows Byte) (now : Nat) :
    Except ApiError Unit × Rows Byte :=
  rows.approve post.read.approver post.read.deviceId ⟨.bytes post.wrapped, .bytes post.verifier⟩ now

def World.step (prim : Primitives Byte) (userId : String) (w : World Byte) :
    Event Byte → Option (World Byte)
  | .set body keyId => some { w with rows := (w.rows.set body keyId).2 }
  | .rewrap body => some { w with rows := (w.rows.rewrap body).2 }
  | .signIn deviceId => some { w with rows := w.rows.upsert deviceId }
  | .revoke deviceId => some { w with rows := w.rows.revoke deviceId }
  | .register deviceId publicKey now =>
      some { w with rows := (w.rows.register deviceId publicKey now).2 }
  | .cancel deviceId => some { w with rows := w.rows.cancel deviceId }
  | .expire now => some { w with rows := w.rows.expireApprovals now }
  | .read approver deviceId now =>
      match (w.rows.devices deviceId).bind (·.summary now) with
      | none => none
      | some approval =>
          some { w with reads := ⟨approver, deviceId, approval.publicKey⟩ :: w.reads }
  | .wrap read account typed seed nonce =>
      if read ∈ w.reads then
        match approveWithKey prim account userId read typed seed nonce with
        | .error _ => none
        | .ok post => some { w with posts := post :: w.posts }
      else none
  | .deliver post now =>
      if post ∈ w.posts then some { w with rows := (post.approve w.rows now).2 } else none

/-- A post that the server takes as the answer to a request comes to the
request its approver read. -/
def World.unreplaced (w : World Byte) : Event Byte → Bool
  | .deliver post now =>
      (w.rows.devices post.read.deviceId).all fun columns =>
        !(columns.live now && columns.wrapped.isNone &&
          w.rows.keys.verifier = some post.verifier &&
          post.read.approver ≠ post.read.deviceId) ||
        columns.publicKey = some post.read.publicKey
  | _ => true

end

variable {prim : Primitives Byte} {userId : String}

/-! ## The stored key -/

/-- The columns of the account key are set together. -/
def KeyColumns.Complete (keys : KeyColumns Byte) : Prop :=
  keys = {} ∨ ∃ enc salt id verifier, keys = ⟨some enc, some salt, some id, some verifier⟩

namespace World

variable [DecidableEq Byte] {w w' : World Byte} {event : Event Byte}

/-- Only a first set and a rewrap touch the account key. -/
theorem step_keys (hstep : w.step prim userId event = some w') :
    w'.rows.keys = w.rows.keys ∨
    (∃ body keyId material, event = .set body keyId ∧ body.decode = .ok material ∧
      w.rows.keys.enc = none ∧ w'.rows.keys =
        ⟨some material.wrapped, some material.salt, some keyId, some material.verifier⟩) ∨
    (∃ body material, event = .rewrap body ∧ body.decode = .ok material ∧
      w.rows.keys.verifier = some material.verifier ∧ w'.rows.keys =
        { w.rows.keys with enc := some material.wrapped, salt := some material.salt }) := by
  cases event with
  | set body keyId =>
      obtain rfl := Option.some.inj hstep
      obtain ⟨material, hdecode, hnone, -, hnext⟩ | ⟨hnext, -⟩ :=
        Rows.set_cases (Prod.eta (w.rows.set body keyId)).symm
      · exact Or.inr (Or.inl ⟨body, keyId, material, rfl, hdecode, hnone, by rw [hnext]⟩)
      · exact Or.inl (by rw [hnext])
  | rewrap body =>
      obtain rfl := Option.some.inj hstep
      obtain ⟨material, hdecode, hverifier, -, hnext⟩ | ⟨hnext, -⟩ :=
        Rows.rewrap_cases (Prod.eta (w.rows.rewrap body)).symm
      · exact Or.inr (Or.inr ⟨body, material, rfl, hdecode, hverifier, by rw [hnext]⟩)
      · exact Or.inl (by rw [hnext])
  | register deviceId publicKey now =>
      obtain rfl := Option.some.inj hstep
      left
      obtain ⟨_, _, -, -, hnext⟩ | hnext :=
        Rows.register_cases (Prod.eta (w.rows.register deviceId publicKey now)).symm
      · simp only [hnext, Rows.setDevice_keys]
      · rw [hnext]
  | deliver post now =>
      left
      simp only [step] at hstep
      split at hstep
      next =>
        obtain rfl := Option.some.inj hstep
        obtain ⟨_, _, _, -, -, -, -, -, -, -, hnext⟩ | hnext :=
          Rows.approve_cases (Prod.eta (post.approve w.rows now)).symm
        · simp only [hnext, Rows.setDevice_keys]
        · rw [hnext]
      next => cases hstep
  | signIn | revoke | cancel | expire =>
      obtain rfl := Option.some.inj hstep
      exact Or.inl rfl
  | read | wrap =>
      left
      simp only [step] at hstep
      grind

theorem step_complete (hcomplete : w.rows.keys.Complete)
    (hstep : w.step prim userId event = some w') : w'.rows.keys.Complete := by
  obtain hsame | ⟨_, keyId, material, -, -, -, hkeys⟩ | ⟨_, material, -, -, hverifier, hkeys⟩ :=
    step_keys hstep
  · rwa [hsame]
  · exact Or.inr ⟨_, _, _, _, hkeys⟩
  · cases hcomplete with
    | inl hempty =>
        rw [hempty] at hverifier
        cases hverifier
    | inr hfull =>
        obtain ⟨enc, salt, id, verifier, hfull⟩ := hfull
        rw [hfull] at hkeys
        exact Or.inr ⟨_, _, _, _, hkeys⟩

/-- The verifier and the key id are set once. -/
theorem step_verifier (hcomplete : w.rows.keys.Complete)
    (hstep : w.step prim userId event = some w') {verifier : List Byte}
    (hverifier : w.rows.keys.verifier = some verifier) :
    w'.rows.keys.verifier = some verifier ∧ w'.rows.keys.id = w.rows.keys.id := by
  obtain hsame | ⟨_, _, _, -, -, hnone, -⟩ | ⟨_, _, -, -, -, hkeys⟩ := step_keys hstep
  · exact ⟨by rw [hsame, hverifier], by rw [hsame]⟩
  · exfalso
    obtain hempty | ⟨_, _, _, _, hfull⟩ := hcomplete
    · simp [hempty] at hverifier
    · simp [hfull] at hnone
  · exact ⟨by rw [hkeys, hverifier], by rw [hkeys]⟩

/-! ## The blobs that are relayed -/

/-- A blob comes to a row only by a post that answers a live request. -/
theorem step_wrapped (hstep : w.step prim userId event = some w') {deviceId : String}
    {columns : ApprovalColumns Byte} {blob : List Byte}
    (hcolumns : w'.rows.devices deviceId = some columns) (hblob : columns.wrapped = some blob) :
    w.rows.devices deviceId = some columns ∨
    ∃ post now old, event = .deliver post now ∧ post ∈ w.posts ∧ deviceId = post.read.deviceId ∧
      blob = post.wrapped ∧ w.rows.keys.verifier = some post.verifier ∧
      post.read.approver ≠ deviceId ∧ w.rows.devices deviceId = some old ∧
      old.live now = true ∧ old.wrapped = none ∧ columns.publicKey = old.publicKey := by
  cases event with
  | deliver post now =>
      simp only [step] at hstep
      split at hstep
      next hpost =>
        obtain rfl := Option.some.inj hstep
        obtain ⟨_, _, old, hother, hwrapped, hposted, hverifier, hold, hlive, hnone, hnext⟩ |
          hnext := Rows.approve_cases (Prod.eta (post.approve w.rows now)).symm
        · obtain rfl := BodyField.bytes.inj hwrapped
          obtain rfl := BodyField.bytes.inj hposted
          -- the post was accepted: only the row it answers changes
          rw [hnext] at hcolumns
          obtain ⟨hdevice, hnew⟩ | hkept := Rows.setDevice_devices hcolumns
          · obtain rfl := Option.some.inj hnew
            obtain rfl := hdevice
            exact Or.inr ⟨post, now, old, rfl, hpost, rfl, (Option.some.inj hblob).symm, hverifier,
              Ne.symm hother, hold, hlive, hnone, rfl⟩
          · exact Or.inl hkept
        · rw [hnext] at hcolumns
          exact Or.inl hcolumns
      next => cases hstep
  -- the other calls empty the column or leave it
  | register id publicKey now =>
      left
      obtain rfl := Option.some.inj hstep
      obtain ⟨bytes, _, -, -, hnext⟩ | hnext :=
        Rows.register_cases (Prod.eta (w.rows.register id publicKey now)).symm
      · rw [hnext] at hcolumns
        exact Rows.setDevice_wrapped (by simp) hcolumns hblob
      · rwa [hnext] at hcolumns
  | signIn id | revoke id | cancel id =>
      left
      obtain rfl := Option.some.inj hstep
      exact Rows.setDevice_wrapped (by simp) hcolumns hblob
  | expire now =>
      left
      obtain rfl := Option.some.inj hstep
      simp only [Rows.expireApprovals, Option.map_eq_some_iff] at hcolumns
      obtain ⟨old, hold, hsame⟩ := hcolumns
      grind
  | set body keyId =>
      left
      obtain rfl := Option.some.inj hstep
      obtain ⟨_, -, -, -, hnext⟩ | ⟨hnext, -⟩ :=
        Rows.set_cases (Prod.eta (w.rows.set body keyId)).symm <;>
      · rwa [hnext] at hcolumns
  | rewrap body =>
      left
      obtain rfl := Option.some.inj hstep
      obtain ⟨_, -, -, -, hnext⟩ | ⟨hnext, -⟩ :=
        Rows.rewrap_cases (Prod.eta (w.rows.rewrap body)).symm <;>
      · rwa [hnext] at hcolumns
  | read | wrap =>
      left
      simp only [step] at hstep
      grind

theorem step_posts (hstep : w.step prim userId event = some w') {post : Post Byte}
    (hpost : post ∈ w'.posts) :
    post ∈ w.posts ∨ ∃ account typed seed nonce,
      approveWithKey prim account userId post.read typed seed nonce = .ok post := by
  cases event with
  | wrap read account typed seed nonce =>
      simp only [step] at hstep
      split at hstep
      next =>
        split at hstep
        next => cases hstep
        next made hmade =>
          obtain rfl := Option.some.inj hstep
          obtain rfl | hold := List.mem_cons.mp hpost
          · have hread : post.read = read := by
              unfold approveWithKey at hmade
              grind
            exact Or.inr ⟨account, typed, seed, nonce, by rw [hread, hmade]⟩
          · exact Or.inl hold
      next => cases hstep
  | set | rewrap | signIn | revoke | register | cancel | expire | read | deliver =>
      left
      simp only [step] at hstep
      grind

end World

variable (prim userId) in
/-- A blob hands the account's key to the device that holds the secret of a
public key. -/
def WrappedTo (keys : KeyColumns Byte) (deviceId : String) (publicKey blob : List Byte) : Prop :=
  ∃ account typed seed nonce, keys.verifier = some (prim.accountVerifier account userId).1 ∧
    prim.approveDevice account publicKey typed userId deviceId seed nonce = .ok blob

variable (prim userId) in
/-- What every run keeps: approvers post what they wrapped, and the server
relays it only for the account's key. -/
structure Sound (w : World Byte) : Prop where
  complete : w.rows.keys.Complete
  posted : ∀ post ∈ w.posts, ∃ account typed seed nonce,
    approveWithKey prim account userId post.read typed seed nonce = .ok post
  relayed : ∀ deviceId columns blob, w.rows.devices deviceId = some columns →
    columns.wrapped = some blob →
    ∃ publicKey, WrappedTo prim userId w.rows.keys deviceId publicKey blob

variable (prim userId) in
/-- Every relayed blob is for the request it stands beside. -/
def Answered (w : World Byte) : Prop :=
  ∀ deviceId columns blob, w.rows.devices deviceId = some columns → columns.wrapped = some blob →
    ∃ publicKey, columns.publicKey = some publicKey ∧
      WrappedTo prim userId w.rows.keys deviceId publicKey blob

variable [DecidableEq Byte] {w w' : World Byte} {event : Event Byte}

omit [DecidableEq Byte] in
theorem approveWithKey_ok {account : KeyBytes Byte} {read : Read Byte} {typed : String}
    {seed : KeyBytes Byte} {nonce : Sized Byte Aead.nonceLen} {post : Post Byte}
    (hpost : approveWithKey prim account userId read typed seed nonce = .ok post) :
    post.verifier = (prim.accountVerifier account userId).1 ∧
      prim.approveDevice account read.publicKey typed userId read.deviceId seed nonce =
        .ok post.wrapped := by
  unfold approveWithKey at hpost
  grind

namespace WrappedTo

omit [DecidableEq Byte] in
theorem of_post {account : KeyBytes Byte} {typed : String} {seed : KeyBytes Byte}
    {nonce : Sized Byte Aead.nonceLen} {post : Post Byte} {keys : KeyColumns Byte}
    (hpost : approveWithKey prim account userId post.read typed seed nonce = .ok post)
    (hverifier : keys.verifier = some post.verifier) :
    WrappedTo prim userId keys post.read.deviceId post.read.publicKey post.wrapped := by
  obtain ⟨hshown, hwrapped⟩ := approveWithKey_ok hpost
  exact ⟨account, typed, seed, nonce, by rw [hverifier, hshown], hwrapped⟩

theorem step (hcomplete : w.rows.keys.Complete) (hstep : w.step prim userId event = some w')
    {deviceId : String} {publicKey blob : List Byte}
    (h : WrappedTo prim userId w.rows.keys deviceId publicKey blob) :
    WrappedTo prim userId w'.rows.keys deviceId publicKey blob := by
  obtain ⟨account, typed, seed, nonce, hverifier, happrove⟩ := h
  exact ⟨account, typed, seed, nonce, (World.step_verifier hcomplete hstep hverifier).1, happrove⟩

omit [DecidableEq Byte] in
/-- The device it is for takes the account's key from it. -/
theorem accepted (hsealing : prim.Sealing) (hagreeing : prim.Agreeing) {keys : KeyColumns Byte}
    {deviceId : String} {publicKey blob : List Byte}
    (h : WrappedTo prim userId keys deviceId publicKey blob) :
    ∃ account, keys.verifier = some (prim.accountVerifier account userId).1 ∧
      ∀ secret, (prim.publicKey secret).1 = publicKey →
        prim.acceptApproval (prim.approvalRequest secret) blob userId deviceId = .ok account := by
  obtain ⟨account, typed, seed, nonce, hverifier, happrove⟩ := h
  refine ⟨account, hverifier, ?_⟩
  intro secret hsecret
  rw [← hsecret] at happrove
  exact hsealing.acceptApproval_approveDevice hagreeing happrove

end WrappedTo

namespace Sound

omit [DecidableEq Byte] in
theorem start : Sound prim userId .start := by
  constructor
  · exact Or.inl rfl
  · simp [World.start]
  · simp [World.start, Rows.start]

theorem step (h : Sound prim userId w) (hstep : w.step prim userId event = some w') :
    Sound prim userId w' := by
  constructor
  · exact World.step_complete h.complete hstep
  · intro post hpost
    obtain hold | hmade := World.step_posts hstep hpost
    · exact h.posted post hold
    · exact hmade
  · intro deviceId columns blob hcolumns hblob
    obtain hold | ⟨post, _, _, -, hpost, rfl, rfl, hverifier, -⟩ :=
      World.step_wrapped hstep hcolumns hblob
    · obtain ⟨publicKey, hwrapped⟩ := h.relayed deviceId columns blob hold hblob
      exact ⟨publicKey, hwrapped.step h.complete hstep⟩
    · obtain ⟨account, typed, seed, nonce, hmade⟩ := h.posted post hpost
      exact ⟨post.read.publicKey, (WrappedTo.of_post hmade hverifier).step h.complete hstep⟩

theorem answered_step (h : Sound prim userId w) (hanswered : Answered prim userId w)
    (hok : w.unreplaced event = true) (hstep : w.step prim userId event = some w') :
    Answered prim userId w' := by
  intro deviceId columns blob hcolumns hblob
  obtain hold | ⟨post, now, old, rfl, hpost, rfl, rfl, hverifier, hother, hold, hlive, hnone,
    hsame⟩ := World.step_wrapped hstep hcolumns hblob
  · obtain ⟨publicKey, hpublic, hwrapped⟩ := hanswered deviceId columns blob hold hblob
    exact ⟨publicKey, hpublic, hwrapped.step h.complete hstep⟩
  · -- the row still shows the key that was read
    have hread : old.publicKey = some post.read.publicKey := by
      simpa [World.unreplaced, hold, hlive, hnone, hverifier, hother] using hok
    obtain ⟨account, typed, seed, nonce, hmade⟩ := h.posted post hpost
    exact ⟨post.read.publicKey, by rw [hsame, hread],
      (WrappedTo.of_post hmade hverifier).step h.complete hstep⟩

theorem of_reaches {ok : World Byte → Event Byte → Prop}
    (h : Runs.Reaches (World.step prim userId) ok .start w) : Sound prim userId w :=
  h.invariant Sound.start (fun _ _ _ hsound _ hstep => hsound.step hstep)

end Sound

theorem Answered.of_reaches
    (h : Runs.Reaches (World.step prim userId) (fun w event => w.unreplaced event = true)
      .start w) : Answered prim userId w := by
  have hboth : Sound prim userId w ∧ Answered prim userId w := by
    have hstart : Answered prim userId .start := by
      intro deviceId columns blob hcolumns
      cases hcolumns
    apply h.invariant ⟨Sound.start, hstart⟩
    · intro before event after hbefore hok hstep
      exact ⟨hbefore.1.step hstep, hbefore.1.answered_step hbefore.2 hok hstep⟩
  exact hboth.2

/-- When every post that is taken as an answer finds the request its approver
read, a poll that carries a blob carries one its own public key's holder opens,
and so does every request that others see as approved. -/
theorem approval_answers_its_request (hsealing : prim.Sealing) (hagreeing : prim.Agreeing)
    (h : Runs.Reaches (World.step prim userId) (fun w event => w.unreplaced event = true)
      .start w) (deviceId : String) (now : Nat) :
    (∀ status blob, w.rows.poll deviceId now = .ok (some status) → status.wrapped = some blob →
      WrappedTo prim userId w.rows.keys deviceId status.publicKey blob ∧
      ∃ account, w.rows.keys.verifier = some (prim.accountVerifier account userId).1 ∧
        ∀ secret, (prim.publicKey secret).1 = status.publicKey →
          prim.acceptApproval (prim.approvalRequest secret) blob userId deviceId = .ok account) ∧
    (∀ columns summary, w.rows.devices deviceId = some columns →
      columns.summary now = some summary → summary.approved = true →
      ∃ blob account, columns.wrapped = some blob ∧
        ∀ secret, (prim.publicKey secret).1 = summary.publicKey →
          prim.acceptApproval (prim.approvalRequest secret) blob userId deviceId =
            .ok account) := by
  have hpolled : ∀ status blob, w.rows.poll deviceId now = .ok (some status) →
      status.wrapped = some blob →
      WrappedTo prim userId w.rows.keys deviceId status.publicKey blob := by
    intro status blob hpoll hblob
    obtain ⟨columns, hcolumns, hpublic, hwrapped, -⟩ := Rows.poll_ok hpoll
    obtain ⟨publicKey, hsame, hto⟩ :=
      Answered.of_reaches h deviceId columns blob hcolumns (by rw [hwrapped, hblob])
    obtain rfl := Option.some.inj (hpublic.symm.trans hsame)
    exact hto
  constructor
  · intro status blob hpoll hblob
    have hto := hpolled status blob hpoll hblob
    exact ⟨hto, hto.accepted hsealing hagreeing⟩
  · intro columns summary hcolumns hsummary happroved
    obtain ⟨status, blob, hpoll, hblob, hpublic⟩ :=
      Rows.poll_of_summary hcolumns hsummary happroved
    obtain ⟨same, hsame, -, hwrapped, -⟩ := Rows.poll_ok hpoll
    obtain rfl := Option.some.inj (hcolumns.symm.trans hsame)
    obtain ⟨account, -, hopens⟩ :=
      (hpolled status blob hpoll hblob).accepted hsealing hagreeing
    exact ⟨blob, account, by rw [hwrapped, hblob], hpublic ▸ hopens⟩

/-! ## A request that is approved, and one that is replaced -/

def sampleAccount : KeyBytes Term := Term.key (.byte 1)

def sampleBody : SetKeysBody Term where
  wrapped := .bytes (Term.zeros 60)
  salt := .bytes (Term.zeros 16)
  verifier := .bytes (symbolic.accountVerifier sampleAccount "user").1

def firstSecret : KeyBytes Term := Term.key (.byte 10)
def secondSecret : KeyBytes Term := Term.key (.byte 11)

def firstPublic : KeyBytes Term := symbolic.publicKey firstSecret
def secondPublic : KeyBytes Term := symbolic.publicKey secondSecret

def sampleRead : Read Term := ⟨"mac", "phone", firstPublic.1⟩

/-- The phone asks, and the Mac wraps the account key to what it read. -/
def asked : List (Event Term) :=
  [.set sampleBody "key_1", .signIn "phone", .register "phone" (.bytes firstPublic.1) 0,
    .read "mac" "phone" 1,
    .wrap sampleRead sampleAccount "AAAA-AAAA" (Term.key (.byte 20)) ⟨Term.zeros 12, rfl⟩]

def samplePost : Post Term :=
  ⟨sampleRead, (match symbolic.approveDevice sampleAccount firstPublic.1 "AAAA-AAAA" "user" "phone"
      (Term.key (.byte 20)) ⟨Term.zeros 12, rfl⟩ with
    | .ok blob => blob
    | .error _ => []), (symbolic.accountVerifier sampleAccount "user").1⟩

def approved : List (Event Term) := asked ++ [.deliver samplePost 2]

/-- The phone asks again before the post arrives. -/
def replaced : List (Event Term) :=
  asked ++ [.register "phone" (.bytes secondPublic.1) 2, .deliver samplePost 3]

/-- What the phone is answered at the end of a run, as the holder of a secret
sees it: whether the answer has its public key and a blob, and whether it opens
the blob. -/
def outcome (test : World Term → Event Term → Bool) (events : List (Event Term))
    (secret : KeyBytes Term) : Option (Bool × Bool) :=
  (Runs.run (World.step symbolic "user") test .start events).map fun w =>
    match w.rows.poll "phone" 4 with
    | .ok (some status) =>
        (status.publicKey = (symbolic.publicKey secret).1 && status.wrapped.isSome,
          status.wrapped.any fun blob =>
            (symbolic.acceptApproval (symbolic.approvalRequest secret) blob "user" "phone").toBool)
    | _ => (false, false)

theorem outcome_answered {test : World Term → Event Term → Bool} {events : List (Event Term)}
    {secret : KeyBytes Term} {opens : Bool}
    (houtcome : outcome test events secret = some (true, opens)) :
    ∃ w status blob, Runs.run (World.step symbolic "user") test .start events = some w ∧
      w.rows.poll "phone" 4 = .ok (some status) ∧ status.wrapped = some blob ∧
      (symbolic.publicKey secret).1 = status.publicKey ∧
      (symbolic.acceptApproval (symbolic.approvalRequest secret) blob "user" "phone").toBool =
        opens := by
  obtain ⟨w, hrun, hseen⟩ := Option.map_eq_some_iff.mp houtcome
  split at hseen
  next status hpoll =>
    obtain ⟨hsame, hopens⟩ := Prod.mk.inj hseen
    rw [Bool.and_eq_true, decide_eq_true_eq] at hsame
    obtain ⟨blob, hblob⟩ := Option.isSome_iff_exists.mp hsame.2
    refine ⟨w, status, blob, hrun, hpoll, hblob, hsame.1.symm, ?_⟩
    simpa [hblob] using hopens
  next => cases hseen

theorem approved_opens : ∃ w status blob account,
    Runs.Reaches (World.step symbolic "user") (fun w event => w.unreplaced event = true) .start w ∧
    w.rows.poll "phone" 4 = .ok (some status) ∧ status.wrapped = some blob ∧
    symbolic.acceptApproval (symbolic.approvalRequest firstSecret) blob "user" "phone" =
      .ok account := by
  have houtcome : outcome World.unreplaced approved firstSecret = some (true, true) := by
    decide +kernel
  obtain ⟨w, status, blob, hrun, hpoll, hblob, hsame, -⟩ := outcome_answered houtcome
  have hreach := Runs.Reaches.start.run (fun _ _ hok => hok) hrun
  obtain ⟨-, account, -, hopens⟩ := (approval_answers_its_request symbolic_ideal.toSealing
    symbolic_agreeing hreach "phone" 4).1 status blob hpoll hblob
  exact ⟨w, status, blob, account, hreach, hpoll, hblob, hopens firstSecret hsame⟩

theorem replaced_does_not_open : ¬∀ (prim : Primitives Term) (userId : String) (w : World Term),
    prim.Ideal → prim.Agreeing → Runs.Reaches (World.step prim userId) Runs.anything .start w →
    ∀ deviceId now status blob, w.rows.poll deviceId now = .ok (some status) →
      status.wrapped = some blob → ∀ secret, (prim.publicKey secret).1 = status.publicKey →
      ∃ account, prim.acceptApproval (prim.approvalRequest secret) blob userId deviceId =
        .ok account := by
  intro hclaim
  have houtcome : outcome (fun _ _ => true) replaced secondSecret = some (true, false) := by
    decide +kernel
  obtain ⟨w, status, blob, hrun, hpoll, hblob, hsame, hfails⟩ := outcome_answered houtcome
  obtain ⟨account, hopens⟩ := hclaim symbolic "user" w symbolic_ideal symbolic_agreeing
    (Runs.Reaches.start.run (fun _ _ _ => trivial) hrun) "phone" 4 status blob hpoll hblob
    secondSecret hsame
  rw [hopens] at hfails
  cases hfails

end ObSink.Server.Account
