import ObSink.Core.Crypto
import ObSink.Core.Ignore
import ObSink.Lib.Prog
import ObSink.Server.Read
import ObSink.Server.Serial

/-! # What a sync cycle does to the world

A cycle reads and writes one device's folder and bookkeeping and talks to the
server. Each operation here is one blocking closure or one request of
`core/src/sync_engine.rs` and `core/src/api_client.rs`; `handle` says what it
does, given what the environment brings along: the time, nonces, the user's
answers, and faults.
-/

namespace ObSink.Engine

open Aead (Nonce)

/-! ## Errors -/

/-- Why a request did not get through, as far as the engine looks at it. -/
inductive HttpErrorKind where
  | timeout
  | connect
  | request
  | other
  deriving DecidableEq, Repr

inductive ApiError where
  | http (kind : HttpErrorKind) (message : String)
  | conflict (path : String) (conflict : ServerConflict)
  | crypto (error : CryptoError)
  | unauthorized
  | unexpectedStatus (status : Nat) (body : String)
  deriving DecidableEq, Repr

/-- The phrases of the statuses the server answers with. -/
def reasonPhrase : Nat → String
  | 400 => "Bad Request"
  | 401 => "Unauthorized"
  | 403 => "Forbidden"
  | 404 => "Not Found"
  | 409 => "Conflict"
  | 413 => "Payload Too Large"
  | 415 => "Unsupported Media Type"
  | 500 => "Internal Server Error"
  | 502 => "Bad Gateway"
  | 507 => "Insufficient Storage"
  | _ => "<unknown status code>"

def ApiError.text : ApiError → String
  | .http _ message => "http error: " ++ message
  | .conflict path _ => "api conflict on " ++ path
  | .crypto error => "crypto error: " ++ error.text
  | .unauthorized => "unauthorized: sign in again"
  | .unexpectedStatus status body =>
      "unexpected status " ++ Text.numeral status ++ " " ++ reasonPhrase status ++ ": " ++ body

inductive SyncEngineError where
  | io (message : String)
  | json (message : String)
  | api (error : ApiError)
  | hasher (message : String)
  | crypto (error : CryptoError)
  | missingResolution (path : String)
  | blocking (message : String)
  deriving DecidableEq, Repr

def SyncEngineError.text : SyncEngineError → String
  | .io message => "i/o error: " ++ message
  | .json message => "json error: " ++ message
  | .api error => "api error: " ++ error.text
  | .hasher message => "hashing error: " ++ message
  | .crypto error => "crypto error: " ++ error.text
  | .missingResolution path => "missing resolution for conflict at " ++ path
  | .blocking message => "blocking task failed: " ++ message

/-- Auth failures and server errors are systemic; other answers belong to one
file. -/
def isFatalStatus (status : Nat) : Bool :=
  status = 401 || status = 403 || (500 ≤ status && status ≤ 599)

def isFatalApiError : ApiError → Bool
  | .http kind _ => kind = .timeout || kind = .connect || kind = .request
  | .unauthorized => true
  | .unexpectedStatus status _ => isFatalStatus status
  | .crypto _ | .conflict _ _ => false

def isFatalSyncError : SyncEngineError → Bool
  | .api error => isFatalApiError error
  | _ => false

/-- What the client makes of a refusal: 401 is `unauthorized`, any other status
comes with its body. -/
def ofServer (error : Server.ApiError) : ApiError :=
  if error.statusCode = 401 then .unauthorized
  else
    .unexpectedStatus error.statusCode
      (match error with
      | .status _ message => "\x7b\"error\":\"" ++ message ++ "\"\x7d"
      | .conflict path _ => "\x7b\"path\":\"" ++ path ++ "\"\x7d"
      | .internal _ => "\x7b\"error\":\"internal server error\"\x7d")

/-! ## The device -/

structure StoredFile where
  content : Bytes
  modified : Nat
  deriving DecidableEq, Repr

/-- The files of a vault folder by relative path. -/
abbrev Folder := Std.ExtTreeMap String StoredFile

structure RemoteManifestCache where
  etag : Option String
  manifest : Manifest
  deriving DecidableEq

/-- A vault folder with its bookkeeping: the checkpoint of the last completed
sync and the last server manifest seen. -/
structure Device where
  folder : Folder
  base : Manifest
  cache : Option RemoteManifestCache
  deriving DecidableEq

/-- What a cycle acts on. -/
structure World where
  device : Device
  server : Server.State

/-- What stays fixed during a cycle. -/
structure Context where
  crypto : Crypto
  server : Server.Config
  userId : String
  ignore : IgnoreRules

/-! ## The operations -/

inductive Effect where
  | loadLocalState
  | loadRemoteCache
  | getManifest (ifNoneMatch : Option String)
  | saveRemoteCache (cache : RemoteManifestCache)
  | deleteLocalFile (path : String)
  /-- Which of the downloads in flight goes on. -/
  | pick
  | getFile (path : String)
  | writeFile (path : String) (content : Bytes)
  | ask (conflicts : List Conflict)
  /-- The content of a file and its modification time. -/
  | statFile (path : String)
  /-- Read a file and encrypt it. -/
  | sealFile (path : String)
  /-- A batch request on its way to the server. -/
  | sendBatch
  /-- One operation of a batch, applied by the server. -/
  | applyOp (op : BatchOp)
  /-- The head of the answer on its way back. -/
  | receiveBatch
  /-- The body of the answer. -/
  | readBatch
  | loadBase
  | saveBase (manifest : Manifest)
  deriving DecidableEq

@[reducible] def Effect.Reply : Effect → Type
  | .loadLocalState => Except SyncEngineError (Manifest × Folder × Nat)
  | .loadRemoteCache => Option RemoteManifestCache
  | .getManifest _ => Except ApiError Server.ManifestAnswer
  | .saveRemoteCache _ => Except SyncEngineError Unit
  | .deleteLocalFile _ => Except SyncEngineError Unit
  | .pick => Nat
  | .getFile _ => Except ApiError Bytes
  | .writeFile _ _ => Except SyncEngineError Unit
  | .ask _ => List ConflictResolution
  | .statFile _ => Except SyncEngineError StoredFile
  | .sealFile _ => Except SyncEngineError Bytes
  | .sendBatch => Except ApiError Unit
  | .applyOp _ => Except Server.ApiError Server.Outcome
  | .receiveBatch => Except ApiError Unit
  | .readBatch => Except ApiError Unit
  | .loadBase => Except SyncEngineError Manifest
  | .saveBase _ => Except SyncEngineError Unit

/-- A program of the engine. -/
abbrev Eff := Prog Effect Effect.Reply

/-- What fails: an operation on the device, or a request. -/
inductive Fault where
  | device (error : SyncEngineError)
  | network (error : ApiError)
  deriving DecidableEq, Repr

/-- What the environment brings to one operation. -/
structure Env where
  fault : Option Fault := none
  serverFault : Option Server.Fault := none
  now : Nat := 0
  nonce : Nonce := Aead.zeroNonce
  serverNonce : Nonce := Aead.zeroNonce
  pick : Nat := 0
  answers : List ConflictResolution := []

/-- Nothing fails. -/
def Env.Clean (env : Env) : Prop := env.fault = none ∧ env.serverFault = none

def Env.onDevice {α : Type} (env : Env) (value : α) : Except SyncEngineError α :=
  match env.fault with
  | some (.device error) => .error error
  | _ => .ok value

/-- The request an operation of a batch comes to: the path goes out as its
token, a put brings the encrypted path along. -/
def wireOperation (crypto : Crypto) (nonce : Nonce) : BatchOp → Server.Request
  | .put path parentHash contentHash content =>
      .put
        { path := crypto.pathToken path
          parentHash := some (parentHash.getD "")
          contentHash := some contentHash
          encPath := some (crypto.encryptPath nonce path) }
        content
  | .delete path parentHash => .delete (crypto.pathToken path) (some (parentHash.getD ""))

def callOf (context : Context) (env : Env) (op : BatchOp) : Server.Call where
  fault := env.serverFault
  now := env.now
  nonce := env.serverNonce
  userId := context.userId
  request := wireOperation context.crypto env.nonce op

/-- A request that gets through, or fails on the way. -/
def Env.onNetwork {α : Type} (env : Env) (answer : Except Server.ApiError α) : Except ApiError α :=
  match env.fault with
  | some (.network error) => .error error
  | _ =>
      match answer with
      | .ok value => .ok value
      | .error error => .error (ofServer error)

def Device.setFile (device : Device) (path : String) (file : StoredFile) : Device :=
  { device with folder := device.folder.insert path file }

def Device.removeFile (device : Device) (path : String) : Device :=
  { device with folder := device.folder.erase path }

/-- A change of the device that happens, or fails and changes nothing. -/
def Env.change (env : Env) (world : World) (device : Device) :
    Except SyncEngineError Unit × World :=
  match env.onDevice () with
  | .ok () => (.ok (), { world with device })
  | .error error => (.error error, world)

theorem Env.change_cases (env : Env) (world : World) (device : Device) :
    env.change world device = (.ok (), { world with device }) ∨
      ∃ error, env.change world device = (.error error, world) := by
  unfold Env.change
  cases env.onDevice () with
  | ok value => exact Or.inl rfl
  | error error => exact Or.inr ⟨error, rfl⟩

theorem Env.change_server (env : Env) (world : World) (device : Device) :
    (env.change world device).2.server = world.server := by
  rcases env.change_cases world device with hdone | ⟨error, hfailed⟩
  · rw [hdone]
  · rw [hfailed]

/-- What fails leaves the device as it is. -/
theorem Env.change_device (env : Env) (world : World) (device : Device) :
    (env.change world device).2.device = device ∨
      (env.change world device).2.device = world.device := by
  rcases env.change_cases world device with hdone | ⟨error, hfailed⟩
  · exact Or.inl (by rw [hdone])
  · exact Or.inr (by rw [hfailed])

def notFound : SyncEngineError := .io "No such file or directory (os error 2)"

/-- One operation. -/
def handle (context : Context) (env : Env) (effect : Effect) (world : World) :
    effect.Reply × World :=
  match effect with
  | .loadLocalState =>
      (env.onDevice (world.device.base, world.device.folder, env.now), world)
  | .loadRemoteCache =>
      -- an unreadable cache is no cache
      match env.onDevice world.device.cache with
      | .ok cache => (cache, world)
      | .error _ => (none, world)
  | .getManifest ifNoneMatch =>
      (env.onNetwork (Server.getManifest world.server.vault context.userId ifNoneMatch), world)
  | .saveRemoteCache cache => env.change world { world.device with cache := some cache }
  | .deleteLocalFile path =>
      match world.device.folder[path]? with
      | none => (.ok (), world)
      | some _ => env.change world (world.device.removeFile path)
  | .pick => (env.pick, world)
  | .getFile path =>
      (env.onNetwork (Server.getFile context.server world.server context.userId
        (context.crypto.pathToken path)), world)
  | .writeFile path content => env.change world (world.device.setFile path ⟨content, env.now⟩)
  | .ask _ => (env.answers, world)
  | .statFile path =>
      match world.device.folder[path]? with
      | some file => (env.onDevice file, world)
      | none => (.error notFound, world)
  | .sealFile path =>
      match world.device.folder[path]? with
      | some file => (env.onDevice (context.crypto.encrypt env.nonce file.content), world)
      | none => (.error notFound, world)
  | .sendBatch | .receiveBatch | .readBatch => (env.onNetwork (.ok ()), world)
  | .applyOp op =>
      let (answer, server) := (callOf context env op).serve context.server world.server
      (answer, { world with server })
  | .loadBase => (env.onDevice world.device.base, world)
  | .saveBase manifest => env.change world { world.device with base := manifest }

/-- The server only changes when it applies an operation. -/
theorem handle_server (context : Context) (env : Env) {effect : Effect}
    (hop : ∀ op, effect ≠ .applyOp op) (world : World) :
    (handle context env effect world).2.server = world.server := by
  cases effect with
  | applyOp op => exact absurd rfl (hop op)
  | loadRemoteCache =>
      simp only [handle]
      split <;> rfl
  | deleteLocalFile path =>
      simp only [handle]
      split
      next => rfl
      next => exact env.change_server _ _
  | saveRemoteCache cache => exact env.change_server _ _
  | saveBase manifest => exact env.change_server _ _
  | writeFile path content => exact env.change_server _ _
  | statFile path =>
      simp only [handle]
      split <;> rfl
  | sealFile path =>
      simp only [handle]
      split <;> rfl
  | _ => rfl

/-- What an operation can do when every environment it may meet is allowed. -/
def Performs (context : Context) (allowed : Env → Prop) (effect : Effect) (before : World)
    (reply : effect.Reply) (after : World) : Prop :=
  ∃ env, allowed env ∧ handle context env effect before = (reply, after)

end ObSink.Engine
