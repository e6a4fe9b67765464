import ObSink.Engine.Honest

/-! # The rows clients leave

Whatever fails on the way, a client that has the vault's keys writes under the
token of a path, and what it writes names that path or nothing. So the rows
always decode, each path to its own row, and the decoded manifest is the last
accepted write of every path.
-/

namespace ObSink.Engine

variable {context : Context} {server : Server.State}

/-- Rows that sit under the token of a path and name it, or nothing. -/
structure Orderly (context : Context) (server : Server.State) : Prop where
  noStrays : NoStrays context server
  named : Named context server
  live : ∀ path entry, remoteAt context server path = some entry → entry.deleted = false →
    entry.encPath ≠ ""

/-- What the decoded manifest has for a path. -/
def listed (context : Context) (server : Server.State) (path : String) : Option FileEntry :=
  (remoteAt context server path).filter fun entry => entry.encPath ≠ ""

theorem Orderly.decode {server : Server.State} (horderly : Orderly context server) :
    ∃ manifest, decodeManifest context.crypto server.vault.files = .ok manifest ∧
      ∀ path, manifest[path]? = listed context server path :=
  decode_of_named horderly.noStrays horderly.named

/-- A request a client with the vault's keys sends for a path. -/
def FromClient (crypto : Crypto) (path : String) : Server.Request → Prop
  | .put params _ => params.path = crypto.pathToken path ∧
      ∃ nonce, params.encPath = some (crypto.encryptPath nonce path)
  | .delete token _ => token = crypto.pathToken path

theorem FromClient.path_eq {crypto : Crypto} {path : String} {request : Server.Request}
    (hclient : FromClient crypto path request) : request.path = crypto.pathToken path := by
  cases request with
  | put params body => exact hclient.1
  | delete token parentHash => exact hclient

/-- The operations of a batch are requests of a client, for one spelling of
their path. -/
theorem fromClient_wireOperation (crypto : Crypto) (nonce : Aead.Nonce) (op : BatchOp) :
    FromClient crypto (normalizePath op.path) (wireOperation crypto nonce op) := by
  have hsame : normalizePath (normalizePath op.path) = normalizePath op.path :=
    (plain_normalizePath op.path).normalizePath
  cases op with
  | put path parentHash contentHash content =>
      refine ⟨?_, nonce, ?_⟩
      · simp only [Crypto.pathToken, BatchOp.path] at hsame ⊢
        rw [hsame]
      · simp only [Crypto.encryptPath, BatchOp.path] at hsame ⊢
        rw [hsame]
  | delete path parentHash =>
      simp only [FromClient, wireOperation, Crypto.pathToken, BatchOp.path] at hsame ⊢
      rw [hsame]

theorem remoteAt_congr {server after : Server.State}
    (hfiles : after.vault.files = server.vault.files)
    (path : String) : remoteAt context after path = remoteAt context server path := by
  unfold remoteAt
  rw [hfiles]

/-- The row of every path after an upsert of one of them. -/
theorem remoteAt_upsert (hideal : context.crypto.Ideal) {server after : Server.State}
    {path : String} (hplain : Plain path) {entry : FileEntry} {now : Nat}
    (hvault : after.vault = server.vault.upsertEntry (context.crypto.pathToken path) entry now)
    (other : String) :
    remoteAt context after other =
      if other = path then some entry else remoteAt context server other := by
  unfold remoteAt
  rw [hvault]
  by_cases hother : Plain other
  · rw [if_pos hother, if_pos hother]
    by_cases heq : other = path
    · subst heq
      simp [Server.Vault.upsertEntry]
    · rw [if_neg heq]
      refine Std.ExtTreeMap.getElem?_insert_of_ne _ entry ?_
      intro htoken
      exact heq (hideal.pathToken_inj hother hplain htoken.symm)
  · rw [if_neg hother, if_neg hother, if_neg]
    rintro rfl
    exact hother hplain

/-- A put that was written is named by what it brought along. -/
theorem FromClient.put_encPath (hideal : context.crypto.Ideal) {path : String}
    {params : Server.PutParams} {body : Bytes}
    (hclient : FromClient context.crypto path (.put params body)) (contentHash : String)
    (current : Option FileEntry) (now size : Nat) :
    ∃ nonce, (Server.putEntry params contentHash current now size).encPath =
      context.crypto.encryptPath nonce path := by
  obtain ⟨_, nonce, hencPath⟩ := hclient
  refine ⟨nonce, ?_⟩
  simp [Server.putEntry, hencPath, Option.filter, hideal.encryptPath_ne_empty nonce path]

/-- What a client's accepted write leaves names its path, or nothing; nothing
only if it is a tombstone. -/
theorem FromClient.names (hideal : context.crypto.Ideal) {path : String} (hplain : Plain path)
    {request : Server.Request} (hclient : FromClient context.crypto path request)
    {current : Option FileEntry} {now : Nat} {entry : FileEntry}
    (hwrites : request.Writes current now entry)
    (hcurrent : ∀ row, current = some row → row.encPath ≠ "" →
      context.crypto.decryptPath row.encPath = .ok path) :
    (entry.encPath ≠ "" → context.crypto.decryptPath entry.encPath = .ok path) ∧
      (entry.deleted = false → entry.encPath ≠ "") := by
  cases request with
  | put params body =>
      obtain ⟨⟨contentHash, _, rfl⟩, _⟩ := hwrites
      obtain ⟨nonce, hkept⟩ := hclient.put_encPath hideal contentHash current now body.length
      rw [hkept]
      refine ⟨fun _ => ?_, fun _ => hideal.encryptPath_ne_empty nonce path⟩
      rw [hideal.decryptPath_encryptPath, hplain.normalizePath]
  | delete token parentHash =>
      obtain ⟨rfl, _⟩ := hwrites
      refine ⟨fun hne => ?_, fun hlive => by cases hlive⟩
      cases current with
      | none => exact absurd rfl hne
      | some row => exact hcurrent row rfl hne

/-- A client's request keeps the rows in order, whatever fails. -/
theorem Orderly.serve (hideal : context.crypto.Ideal) {server : Server.State}
    (horderly : Orderly context server) (config : Server.Config) {call : Server.Call}
    {path : String} (hplain : Plain path) (hclient : FromClient context.crypto path call.request) :
    Orderly context (call.serve config server).2 := by
  have hpath : call.path = context.crypto.pathToken path := hclient.path_eq
  rcases Server.serve_vault config call server with ⟨entry, hwritten, hvault⟩ | ⟨_, hvault⟩
  · have hwrites := Server.writes_of_serve hwritten
    rw [hpath] at hvault hwrites
    obtain ⟨hnames, hlive⟩ := hclient.names hideal hplain hwrites fun current hcurrent =>
      horderly.named path current ((remoteAt_of_plain context server hplain).trans hcurrent)
    refine ⟨?_, ?_, ?_⟩
    · intro token row hrow
      by_cases heq : context.crypto.pathToken path = token
      · exact ⟨path, hplain, heq⟩
      · rw [hvault] at hrow
        have hold := Std.ExtTreeMap.getElem?_insert_of_ne server.vault.files entry heq
        exact horderly.noStrays token row (hold.symm.trans hrow)
    · intro other row hrow
      rw [remoteAt_upsert hideal hplain hvault] at hrow
      split at hrow
      next heq =>
        obtain rfl := Option.some.inj hrow
        exact heq ▸ hnames
      next => exact horderly.named other row hrow
    · intro other row hrow
      rw [remoteAt_upsert hideal hplain hvault] at hrow
      split at hrow
      next => exact Option.some.inj hrow ▸ hlive
      next => exact horderly.live other row hrow
  · have hsame : ∀ other, remoteAt context (call.serve config server).2 other =
        remoteAt context server other := remoteAt_congr (congrArg Server.Vault.files hvault)
    refine ⟨?_, ?_, ?_⟩
    · intro token row hrow
      rw [hvault] at hrow
      exact horderly.noStrays token row hrow
    · intro other row hrow
      exact horderly.named other row ((hsame other).symm.trans hrow)
    · intro other row hrow
      exact horderly.live other row ((hsame other).symm.trans hrow)

/-- A manifest request fails, or the tag hits, or the rows come with theirs. -/
theorem manifest_answers (env : Env) (vault : Server.Vault) (userId : String)
    (header : Option String) :
    (∃ error, env.onNetwork (Server.getManifest vault userId header) = .error error) ∨
      (Server.ifNoneMatchHits header (Server.etagOf vault.revision) = true ∧
        env.onNetwork (Server.getManifest vault userId header) = .ok .notModified) ∨
      env.onNetwork (Server.getManifest vault userId header) =
        .ok (.rows vault.files (Server.etagOf vault.revision)) := by
  unfold Env.onNetwork Server.getManifest
  split
  next => exact Or.inl ⟨_, rfl⟩
  next =>
    cases Server.requireMember none vault userId with
    | error error => exact Or.inl ⟨_, rfl⟩
    | ok member =>
        by_cases hhit : Server.ifNoneMatchHits header (Server.etagOf vault.revision) = true
        · exact Or.inr (Or.inl ⟨hhit, by simp [hhit]⟩)
        · exact Or.inr (Or.inr (by simp [hhit]))

/-! ## The last write of a path -/

/-- The version a request asks for. -/
def asked : Server.Request → Version
  | .put params _ => .present (params.hash.getD "")
  | .delete _ _ => .gone

/-- A retried put is only answered so when the row already is what it asks for. -/
theorem version_of_alreadyThere {config : Server.Config} {call : Server.Call}
    {server : Server.State} (hanswer : (call.serve config server).1 = .ok .alreadyThere) :
    version server.vault.files[call.path]? = asked call.request := by
  obtain ⟨fault, now, nonce, userId, request⟩ := call
  cases request with
  | put params body =>
      simp only [Server.Call.serve, Server.applyRequest, Server.applyPut] at hanswer
      split at hanswer
      next => cases hanswer
      next hadmits =>
        unfold Server.admitPut at hadmits
        split at hadmits
        next => cases hadmits
        next contentHash hcheck =>
          unfold Server.gatePut at hadmits
          split at hadmits
          next => cases hadmits
          next row hrow =>
            split at hadmits
            next =>
              split at hadmits
              next hthere =>
                simp only [Bool.and_eq_true, Bool.not_eq_eq_eq_not, Bool.not_true,
                  decide_eq_true_eq] at hthere
                simp only [Server.Call.path, Server.Request.path, hrow, version, hthere, asked,
                  Server.checkPut_ok_hash hcheck, Option.getD_some, Bool.false_eq_true, ↓reduceIte]
              next => cases hadmits
            next => cases hadmits
      next =>
        repeat' split at hanswer
        all_goals cases hanswer
  | delete path parentHash =>
      simp only [Server.Call.serve, Server.applyRequest, Server.applyDelete] at hanswer
      repeat' split at hanswer
      all_goals cases hanswer

theorem version_listed (horderly : Orderly context server) (path : String) :
    version (listed context server path) = version (remoteAt context server path) := by
  unfold listed
  cases hrow : remoteAt context server path with
  | none => rfl
  | some entry =>
      by_cases hblank : entry.encPath = ""
      · have hdeleted : entry.deleted = true := by
          by_contra hlive
          exact horderly.live path entry hrow (by simpa using hlive) hblank
        simp [Option.filter, hblank, version, hdeleted]
      · simp [Option.filter, hblank]

/-- One request: an accepted one gives its path the version it asks for. -/
theorem version_remoteAt_serve (hideal : context.crypto.Ideal) (config : Server.Config)
    {call : Server.Call} {path : String} (hplain : Plain path)
    (hclient : FromClient context.crypto path call.request) (server : Server.State)
    (other : String) :
    version (remoteAt context (call.serve config server).2 other) =
      if other = path ∧ (call.serve config server).1.isOk = true then asked call.request
      else version (remoteAt context server other) := by
  have hpath : call.path = context.crypto.pathToken path := hclient.path_eq
  rcases Server.serve_vault config call server with ⟨entry, hwritten, hvault⟩ | ⟨hnot, hvault⟩
  · have hwrites := Server.writes_of_serve hwritten
    rw [hpath] at hvault
    have hversion : version (some entry) = asked call.request := by
      cases hrequest : call.request with
      | put params body =>
          rw [hrequest] at hwrites
          obtain ⟨⟨contentHash, hhash, rfl⟩, _⟩ := hwrites
          simp [version, Server.putEntry, asked, hhash]
      | delete token parentHash =>
          rw [hrequest] at hwrites
          obtain ⟨rfl, _⟩ := hwrites
          rfl
    rw [remoteAt_upsert hideal hplain hvault, hwritten]
    by_cases heq : other = path
    · rw [if_pos heq, if_pos ⟨heq, rfl⟩, hversion]
    · rw [if_neg heq, if_neg fun hboth => heq hboth.1]
  · rw [remoteAt_congr (congrArg Server.Vault.files hvault)]
    split
    next haccepted =>
      obtain ⟨rfl, hok⟩ := haccepted
      -- accepted without a write: the row already is what was asked for
      cases hanswer : (call.serve config server).1 with
      | error error =>
          rw [hanswer] at hok
          cases hok
      | ok outcome =>
          cases outcome with
          | written entry => exact absurd hanswer (hnot entry)
          | alreadyThere =>
              rw [remoteAt_of_plain context server hplain, ← hpath]
              exact version_of_alreadyThere hanswer
    next => rfl

/-- The requests for a path that were accepted, in order. -/
def acceptedOn (crypto : Crypto) (path : String)
    (log : List (Server.Call × Except Server.ApiError Server.Outcome)) : List Server.Request :=
  (log.filter fun done => done.1.path = crypto.pathToken path && done.2.isOk).map fun done =>
    done.1.request

/-- The version the last accepted request for a path asked for. -/
def lastWritten (crypto : Crypto) (path : String)
    (log : List (Server.Call × Except Server.ApiError Server.Outcome)) : Version :=
  ((acceptedOn crypto path log).getLast?.map asked).getD .gone

theorem lastWritten_concat (crypto : Crypto) (path : String)
    (log : List (Server.Call × Except Server.ApiError Server.Outcome)) (call : Server.Call)
    (answer : Except Server.ApiError Server.Outcome) :
    lastWritten crypto path (log ++ [(call, answer)]) =
      if call.path = crypto.pathToken path ∧ answer.isOk = true then asked call.request
      else lastWritten crypto path log := by
  unfold lastWritten acceptedOn
  rw [List.filter_append, List.map_append]
  by_cases haccepted : call.path = crypto.pathToken path ∧ answer.isOk = true
  · simp [haccepted]
  · rw [if_neg haccepted]
    have hnone : [(call, answer)].filter (fun done =>
        done.1.path = crypto.pathToken path && done.2.isOk) = [] := by
      simpa using haccepted
    rw [hnone]
    simp

/-- A serial execution of clients' requests keeps the rows in order and leaves
every path at its last accepted write. -/
theorem settled_lastWritten (hideal : context.crypto.Ideal) (config : Server.Config)
    {start : Server.State} (hfiles : start.vault.files = ∅)
    {log : List (Server.Call × Except Server.ApiError Server.Outcome)}
    (hanswered : Server.Answered config start log)
    (hclients : ∀ done ∈ log, ∃ path, Plain path ∧ FromClient context.crypto path done.1.request) :
    Orderly context (Server.settled config start (log.map Prod.fst)) ∧
      ∀ path, Plain path →
        version (remoteAt context (Server.settled config start (log.map Prod.fst)) path) =
          lastWritten context.crypto path log := by
  induction log using List.reverseRecOn with
  | nil =>
      have hnone : ∀ path, remoteAt context start path = none := by
        intro path
        simp [remoteAt, hfiles]
      refine ⟨⟨?_, ?_, ?_⟩, fun path _ => by simp [hnone, lastWritten, acceptedOn, version]⟩
      · intro token entry hentry
        simp [hfiles] at hentry
      · intro path entry hentry
        simp [hnone] at hentry
      · intro path entry hentry
        simp [hnone] at hentry
  | append_singleton log done ih =>
      obtain ⟨call, answer⟩ := done
      have hinit : Server.Answered config start log := by
        intro before other reply after hlog
        exact hanswered before other reply (after ++ [(call, answer)]) (by simp [hlog])
      obtain ⟨horderly, hversions⟩ := ih hinit fun done hmem => hclients done (by simp [hmem])
      obtain ⟨target, hplain, hclient⟩ := hclients (call, answer) (by simp)
      have hanswer := hanswered log call answer [] rfl
      rw [List.map_append, Server.settled_append]
      refine ⟨horderly.serve hideal config hplain hclient, fun path hpath => ?_⟩
      have hstep := version_remoteAt_serve hideal config hplain hclient
        (Server.settled config start (log.map Prod.fst)) path
      have hsame : call.path = context.crypto.pathToken path ↔ path = target := by
        constructor
        · intro htoken
          exact hideal.pathToken_inj hpath hplain (htoken.symm.trans hclient.path_eq)
        · rintro rfl
          exact hclient.path_eq
      rw [lastWritten_concat, hanswer, ← hversions path hpath]
      simp only [hsame]
      exact hstep

/-- In every interleaving of clients' requests from an empty vault, any of them
may decode the rows: every path has the version of its last accepted request,
no two rows decode to one path, and every entry is the row under the token of
its path. -/
theorem decoded_manifest_is_last_write (hideal : context.crypto.Ideal) (config : Server.Config)
    {start : Server.State} (hfiles : start.vault.files = ∅) {board : Server.Board}
    (hreach : Server.Reachable config start board)
    (hclients : ∀ done ∈ board.log,
      ∃ path, Plain path ∧ FromClient context.crypto path done.1.request) :
    ∃ manifest, decodeManifest context.crypto board.shared.vault.files = .ok manifest ∧
      (∀ path, Plain path → version manifest[path]? = lastWritten context.crypto path board.log) ∧
      (∀ path entry, manifest[path]? = some entry →
        Plain path ∧ board.shared.vault.files[context.crypto.pathToken path]? = some entry) ∧
      ∀ (token token' : String) (entry entry' : FileEntry) (path : String),
        board.shared.vault.files[token]? = some entry →
        board.shared.vault.files[token']? = some entry' →
        listedAt context.crypto entry = some (path, entry) →
        listedAt context.crypto entry' = some (path, entry') → token = token' := by
  obtain ⟨hanswered, hvault, _⟩ := Server.reachable_settled hreach
  obtain ⟨horderly, hversions⟩ := settled_lastWritten hideal config hfiles hanswered hclients
  rw [hvault]
  obtain ⟨manifest, hdecode, hlookup⟩ := horderly.decode
  refine ⟨manifest, hdecode, ?_, ?_, ?_⟩
  · intro path hplain
    rw [hlookup, version_listed horderly, hversions path hplain]
  · intro path entry hentry
    rw [hlookup, listed, Option.filter_eq_some_iff] at hentry
    have hplain := plain_of_remoteAt hentry.1
    exact ⟨hplain, (remoteAt_of_plain context _ hplain).symm.trans hentry.1⟩
  · -- the path a row decodes to is the one whose token it sits under
    have hown : ∀ (token : String) (entry : FileEntry) (path : String),
        (Server.settled config start (board.log.map Prod.fst)).vault.files[token]? = some entry →
        listedAt context.crypto entry = some (path, entry) →
        token = context.crypto.pathToken path := by
      intro token entry path hrow hlisted
      obtain ⟨real, hplain, rfl⟩ := horderly.noStrays token entry hrow
      unfold listedAt at hlisted
      split at hlisted
      next => cases hlisted
      next hne =>
        have hdecrypt := horderly.named real entry
          ((remoteAt_of_plain context _ hplain).trans hrow) hne
        simp only [hdecrypt, Except.toOption, Option.map_some, Option.some.injEq, Prod.mk.injEq,
          and_true] at hlisted
        rw [hlisted]
    intro token token' entry entry' path hrow hrow' hlisted hlisted'
    rw [hown token entry path hrow hlisted, hown token' entry' path hrow' hlisted']

/-- A client puts `note`, deletes it and puts it again, and sends the last put
twice. -/
def noteCalls : List Server.Call :=
  let crypto := Crypto.sample
  let put := fun parentHash content => callOf sampleContext {}
    (.put "note" parentHash (crypto.contentHmac content) (crypto.encrypt Aead.zeroNonce content))
  [put none [1], callOf sampleContext {} (.delete "note" (some (crypto.contentHmac [1]))),
    put (some (crypto.contentHmac [1])) [2], put (some (crypto.contentHmac [1])) [2]]

theorem noteCalls_fromClient :
    ∀ call ∈ noteCalls, FromClient Crypto.sample "note" call.request := by
  intro call hcall
  simp only [noteCalls, List.mem_cons, List.not_mem_nil, or_false] at hcall
  rcases hcall with rfl | rfl | rfl | rfl
  · exact ⟨rfl, _, rfl⟩
  · exact rfl
  · exact ⟨rfl, _, rfl⟩
  · exact ⟨rfl, _, rfl⟩

theorem last_write_of_note_in_sample :
    let log := Server.served Server.sampleConfig Server.freshState noteCalls
    let after := Server.settled Server.sampleConfig Server.freshState noteCalls
    (acceptedOn .sample "note" log).length = 4 ∧
      ∃ manifest, decodeManifest .sample after.vault.files = .ok manifest ∧
        version manifest["note"]? = .present (Crypto.sample.contentHmac [2]) := by
  intro log after
  have hreach := Server.reachable_of_calls Server.sampleConfig Server.freshState noteCalls
  have hclients : ∀ done ∈ log,
      ∃ path, Plain path ∧ FromClient sampleContext.crypto path done.1.request := by
    intro done hdone
    refine ⟨"note", by decide, noteCalls_fromClient done.1 ?_⟩
    exact Server.fst_mem_of_mem_served hdone
  obtain ⟨manifest, hdecode, hversions, _⟩ := decoded_manifest_is_last_write
    sampleContext_ideal.crypto Server.sampleConfig rfl hreach hclients
  refine ⟨by decide +kernel, manifest, hdecode, ?_⟩
  rw [hversions "note" (by decide)]
  decide +kernel

end ObSink.Engine
