import ObSink.Lib.Ends
import ObSink.Server.Serial

/-! # Batch requests

`POST /vaults/{id}/batch` of `server/src/routes/batch.rs`, and beside it the
`PUT` and `DELETE` handlers of `server/src/routes/files.rs`. A batch is a
multipart form: one part with the operations as JSON, one part with the bytes
of each put. The parts, the JSON text and the printing of an unknown action
come from libraries; a form is taken as the list of its parts.
-/

namespace ObSink.Server

open Aead (Nonce)
open Std (ExtTreeMap)

/-! ## Forms -/

/-- One part of a form. Its data may break off, with the status of the error. -/
structure Field where
  name : Option String
  fileName : Option String
  data : Except Nat Bytes

/-- The parts of a form; `broken` when no further part can be read and the end
of the form was not reached. -/
structure Multipart where
  fields : List Field
  broken : Option Nat

inductive MultipartRejection where
  | invalidBoundary
  | other
  deriving DecidableEq, Repr

inductive Json where
  | null
  | bool (value : Bool)
  | number (literal : String)
  | string (value : String)
  | array (values : List Json)
  /-- The members; no two have the same key. -/
  | object (members : List (String × Json))

/-- What the request layer takes from its libraries: reading a part as JSON
text, writing JSON, and a string as `{:?}` prints it. -/
structure Serde where
  parse : Bytes → Option Json
  render : Json → Bytes
  debug : String → String

/-- A member of an object. -/
def Json.get (key : String) : Json → Option Json
  | .object members => members.lookup key
  | _ => none

def Json.asArray : Json → Option (List Json)
  | .array values => some values
  | _ => none

/-- An `Option<String>` out of a value; no value is `null`. -/
def Json.asText : Option Json → Option (Option String)
  | none | some .null => some none
  | some (.string value) => some (some value)
  | some _ => none

structure WireOp where
  action : Option String
  path : Option String
  parentHash : Option String
  contentHash : Option String
  encPath : Option String
  deriving DecidableEq, Repr

def WireOp.decode (action path parentHash contentHash encPath : Option Json) : Option WireOp := do
  let action ← Json.asText action
  let path ← Json.asText path
  let parentHash ← Json.asText parentHash
  let contentHash ← Json.asText contentHash
  let encPath ← Json.asText encPath
  pure { action, path, parentHash, contentHash, encPath }

/-- `serde_json::from_value::<WireOp>`: an object, or the five fields in order. -/
def WireOp.ofJson : Json → Option WireOp
  | .object members =>
      decode (members.lookup "action") (members.lookup "path") (members.lookup "parentHash")
        (members.lookup "contentHash") (members.lookup "encPath")
  | .array [action, path, parentHash, contentHash, encPath] =>
      decode (some action) (some path) (some parentHash) (some contentHash) (some encPath)
  | _ => none

/-! ## Reading a batch -/

inductive OpKind where
  | put (contentHash encPath : Option String) (content : Bytes)
  | delete
  deriving DecidableEq, Repr

/-- One validated operation: a put has its bytes, a delete has none. -/
structure ParsedOp where
  path : String
  parentHash : Option String
  kind : OpKind
  deriving DecidableEq, Repr

def badRequest (message : String) : ApiError := .status 400 message

def multipartError (status : Nat) : ApiError :=
  if status = 413 then .status 413 "batch too large" else badRequest "malformed multipart body"

/-- A read of the form that may break off. -/
def Field.read (field : Field) : Except ApiError Bytes :=
  match field.data with
  | .ok bytes => .ok bytes
  | .error status => .error (multipartError status)

/-- The operation a content part names with its file name, a `usize`. -/
def Field.index (field : Field) : Option Nat :=
  field.fileName.bind fun name => Text.number? (2 ^ 64) name.toList

/-- The loop over the parts. -/
def readParts (broken : Option Nat) :
    (fields : List Field) → (operations : Option Bytes) → (contents : ExtTreeMap Nat Bytes) →
    Except ApiError (Option Bytes × ExtTreeMap Nat Bytes)
  | [], operations, contents =>
      match broken with
      | some status => .error (multipartError status)
      | none => .ok (operations, contents)
  | field :: rest, operations, contents =>
      if field.name = some "operations" then
        if operations.isSome then .error (badRequest "duplicate operations part")
        else
          match field.read with
          | .error error => .error error
          | .ok text => readParts broken rest (some text) contents
      else if field.name = some "content" then
        match field.index with
        | none => .error (badRequest "content part filename must be the operation index")
        | some index =>
            match field.read with
            | .error error => .error error
            | .ok bytes =>
                if contents[index]?.isSome then
                  .error (badRequest
                    ("duplicate content part for operation " ++ Text.numeral index))
                else readParts broken rest operations (contents.insert index bytes)
      else .error (badRequest "unknown multipart part")

/-- The operations out of the text of their part. -/
def readOperations (serde : Serde) (text : Bytes) : Except ApiError (List WireOp) :=
  match serde.parse text with
  | none => .error (badRequest "body must be JSON")
  | some parsed =>
      match (parsed.get "operations").bind Json.asArray with
      | none => .error (badRequest "operations must be an array")
      | some values =>
          match values.mapM WireOp.ofJson with
          | none => .error (badRequest "operations must be an array")
          | some ops => .ok ops

/-- One operation with its content part; what is left of the parts. -/
def parseOp (serde : Serde) (index : Nat) (op : WireOp) (contents : ExtTreeMap Nat Bytes) :
    Except ApiError (ParsedOp × ExtTreeMap Nat Bytes) :=
  if op.action = some "put" then
    match contents[index]? with
    | none =>
        .error (badRequest ("missing content part for operation " ++ Text.numeral index))
    | some content =>
        .ok (⟨op.path.getD "", op.parentHash, .put op.contentHash op.encPath content⟩,
          contents.erase index)
  else if op.action = some "delete" then
    if contents[index]?.isSome then
      .error (badRequest
        ("operation " ++ Text.numeral index ++ " is not a put but has a content part"))
    else .ok (⟨op.path.getD "", op.parentHash, .delete⟩, contents)
  else
    .error (badRequest ("operation " ++ Text.numeral index ++ ": unknown action " ++
      serde.debug (op.action.getD "")))

def parseOps (serde : Serde) :
    (index : Nat) → (ops : List WireOp) → (contents : ExtTreeMap Nat Bytes) →
    Except ApiError (List ParsedOp)
  | _, [], _ => .ok []
  | index, op :: rest, contents =>
      match parseOp serde index op contents with
      | .error error => .error error
      | .ok (parsed, contents) =>
          match parseOps serde (index + 1) rest contents with
          | .error error => .error error
          | .ok others => .ok (parsed :: others)

/-- Read the parts, decode the operations and check the whole request. Of
several contents that belong to no operation the first is reported, whichever
the hash map of the source comes to. -/
def parseBatch (serde : Serde) (multipart : Multipart) : Except ApiError (List ParsedOp) :=
  match readParts multipart.broken multipart.fields none ∅ with
  | .error error => .error error
  | .ok (none, _) => .error (badRequest "operations must be an array")
  | .ok (some text, contents) =>
      match readOperations serde text with
      | .error error => .error error
      | .ok ops =>
          match contents.keys.find? fun index => decide (ops.length ≤ index) with
          | some stray =>
              .error (badRequest ("content part " ++ Text.numeral stray ++ " has no operation"))
          | none => parseOps serde 0 ops contents

/-! ## Applying a batch -/

/-- What a write brings along besides its request. -/
structure Moment where
  fault : Option Fault
  now : Nat
  nonce : Nonce

/-- What an operation of a batch asks for; a missing parent hash is empty. -/
def ParsedOp.request (op : ParsedOp) : Request :=
  match op.kind with
  | .put contentHash encPath content =>
      .put ⟨op.path, some (op.parentHash.getD ""), contentHash, encPath⟩ content
  | .delete => .delete op.path (some (op.parentHash.getD ""))

def Moment.call (moment : Moment) (userId : String) (request : Request) : Call :=
  ⟨moment.fault, moment.now, moment.nonce, userId, request⟩

/-- How the outcome of an operation stands in the answer of its batch; an
internal error has no place there. -/
def operationResult (path : String) :
    Except ApiError Outcome → Except ApiError BatchOperationResult
  | .ok _ => .ok ⟨path, 200, none⟩
  | .error (.conflict path current) => .ok ⟨path, 409, some ⟨path, current⟩⟩
  | .error (.status code _) => .ok ⟨path, code, none⟩
  | .error (.internal message) => .error (.internal message)

/-- The operations in order, each in its own transaction. -/
def applyOperations (config : Config) (userId : String) :
    (moments : Nat → Moment) → (ops : List ParsedOp) → (state : State) →
    Except ApiError (List BatchOperationResult) × State
  | _, [], state => (.ok [], state)
  | moments, op :: rest, state =>
      let (outcome, state) := ((moments 0).call userId op.request).serve config state
      match operationResult op.path outcome with
      | .error error => (.error error, state)
      | .ok result =>
          match applyOperations config userId (fun i => moments (i + 1)) rest state with
          | (.error error, state) => (.error error, state)
          | (.ok results, state) => (.ok (result :: results), state)

/-- The batch handler. -/
def batch (config : Config) (serde : Serde) (userId : String) (moments : Nat → Moment)
    (multipart : Except MultipartRejection Multipart) (state : State) :
    Except ApiError (List BatchOperationResult) × State :=
  match multipart with
  | .error .invalidBoundary =>
      (.error (.status 415 "batch requires multipart/form-data"), state)
  | .error .other => (.error (badRequest "malformed multipart body"), state)
  | .ok multipart =>
      match parseBatch serde multipart with
      | .error error => (.error error, state)
      | .ok ops => applyOperations config userId moments ops state

theorem batch_of_parseBatch {serde : Serde} {multipart : Multipart} {ops : List ParsedOp}
    (hparse : parseBatch serde multipart = .ok ops) (config : Config) (userId : String)
    (moments : Nat → Moment) (state : State) :
    batch config serde userId moments (.ok multipart) state =
      applyOperations config userId moments ops state := by
  simp only [batch, hparse]

/-! ## Single requests -/

/-- The headers of a write, as far as its handler reads them. -/
structure Headers where
  parentHash : Option String
  contentHash : Option String
  encPath : Option String
  deriving DecidableEq, Repr

/-- Visible ASCII, a space or a tab. -/
def isVisibleAscii (c : Char) : Bool :=
  (32 ≤ c.toNat && c.toNat < 127) || c = '\t'

/-- A header as text: none when a byte of it is not visible ASCII. -/
def headerStr (value : Option String) : Option String :=
  value.filter fun text => text.toList.all isVisibleAscii

/-- `PUT`: the body is read up to the server's limit, then the upload. -/
def putFile (config : Config) (maxFileBytes : Nat) (userId : String) (moment : Moment)
    (path : String) (headers : Headers) (body : Bytes) (state : State) :
    Except ApiError Outcome × State :=
  if body.length > maxFileBytes then (.error (.status 413 "file too large"), state)
  else
    (moment.call userId
      (.put ⟨path, headerStr headers.parentHash, headerStr headers.contentHash,
        headerStr headers.encPath⟩ body)).serve config state

/-- `DELETE`. -/
def deleteFile (config : Config) (userId : String) (moment : Moment) (path : String)
    (headers : Headers) (state : State) : Except ApiError Outcome × State :=
  (moment.call userId (.delete path (headerStr headers.parentHash))).serve config state

/-- What the HTTP server refuses before any handler sees it, with the status: a
head that is too long, or a value with a control character. -/
structure Http where
  refuses : (path : String) → (headers : Headers) → Option Nat

def isBlank (c : Char) : Bool := c = ' ' || c = '\t'

/-- A header's value as HTTP delivers it, without the blanks at its ends. -/
def delivered (value : String) : String :=
  .ofList ((value.toList.dropWhile isBlank).rdropWhile isBlank)

/-- The fields of an operation as headers. -/
def ParsedOp.headers (op : ParsedOp) : Headers :=
  match op.kind with
  | .put contentHash encPath _ => ⟨op.parentHash, contentHash, encPath⟩
  | .delete => ⟨op.parentHash, none, none⟩

/-- An operation as a request of its own, with its fields in the headers. The
route's `{*path}` stands for no empty path. -/
def sendSingle (config : Config) (http : Http) (maxFileBytes : Nat) (userId : String)
    (moment : Moment) (op : ParsedOp) (state : State) : Except ApiError Outcome × State :=
  match http.refuses op.path op.headers with
  | some status => (.error (.status status ""), state)
  | none =>
      if op.path = "" then (.error (.status 404 "not_found"), state)
      else
        let headers : Headers :=
          ⟨op.headers.parentHash.map delivered, op.headers.contentHash.map delivered,
            op.headers.encPath.map delivered⟩
        match op.kind with
        | .put _ _ content =>
            putFile config maxFileBytes userId moment op.path headers content state
        | .delete => deleteFile config userId moment op.path headers state

/-- What the answer to a write carries: its status, and the conflicting entry
with a 409. -/
def response : Except ApiError Outcome → Nat × Option ServerConflict
  | .ok _ => (200, none)
  | .error (.conflict path current) => (409, some ⟨path, current⟩)
  | .error error => (error.statusCode, none)

/-- The operations one after another as single requests. -/
def sendSingly (config : Config) (http : Http) (maxFileBytes : Nat) (userId : String) :
    (moments : Nat → Moment) → (ops : List ParsedOp) → (state : State) →
    List (Nat × Option ServerConflict) × State
  | _, [], state => ([], state)
  | moments, op :: rest, state =>
      let (outcome, state) := sendSingle config http maxFileBytes userId (moments 0) op state
      let (responses, state) :=
        sendSingly config http maxFileBytes userId (fun i => moments (i + 1)) rest state
      (response outcome :: responses, state)

/-! ## Which forms are accepted -/

/-- A part that can be read and is of a known kind: the operations, or the
content of the operation its file name gives. -/
structure Field.Usable (field : Field) : Prop where
  readable : ∃ bytes, field.data = .ok bytes
  known : field.name = some "operations" ∨ field.name = some "content" ∧ field.index.isSome

def Field.operations? (field : Field) : Option Bytes :=
  if field.name = some "operations" then field.data.toOption else none

def Field.content? (index : Nat) (field : Field) : Option Bytes :=
  if field.name = some "content" ∧ field.index = some index then field.data.toOption else none

/-- The texts of the operations parts of a form. -/
def Multipart.operations (multipart : Multipart) : List Bytes :=
  multipart.fields.filterMap Field.operations?

/-- The contents a form has for an operation. -/
def Multipart.contents (multipart : Multipart) (index : Nat) : List Bytes :=
  multipart.fields.filterMap (Field.content? index)

/-- A form that holds `ops`: one operations part with an array of puts and
deletes, one content for each put, none for a delete, none beyond the list, and
no other part. -/
structure WellFormed (serde : Serde) (multipart : Multipart) (ops : List WireOp) : Prop where
  complete : multipart.broken = none
  usable : ∀ field ∈ multipart.fields, field.Usable
  operations : ∃ text value values, multipart.operations = [text] ∧
    serde.parse text = some value ∧ value.get "operations" = some (.array values) ∧
    values.mapM WireOp.ofJson = some ops
  actions : ∀ op ∈ ops, op.action = some "put" ∨ op.action = some "delete"
  puts : ∀ index op, ops[index]? = some op → op.action = some "put" →
    (multipart.contents index).length = 1
  deletes : ∀ index op, ops[index]? = some op → op.action = some "delete" →
    multipart.contents index = []
  beyond : ∀ index, ops.length ≤ index → multipart.contents index = []

theorem Field.read_ok {field : Field} {bytes : Bytes} (hdata : field.data = .ok bytes) :
    field.read = .ok bytes := by
  simp only [Field.read, hdata]

theorem Field.data_of_read {field : Field} {bytes : Bytes} (hread : field.read = .ok bytes) :
    field.data = .ok bytes := by
  unfold Field.read at hread
  split at hread
  next found hdata =>
    obtain rfl := Except.ok.inj hread
    exact hdata
  next => cases hread

/-- What the loop over the parts has at its end: the operations and the
contents it started with and those of the parts, none of them twice. -/
theorem readParts_ok {broken : Option Nat} {fields : List Field} {operations text : Option Bytes}
    {contents parts : ExtTreeMap Nat Bytes}
    (hread : readParts broken fields operations contents = .ok (text, parts)) :
    broken = none ∧ (∀ field ∈ fields, field.Usable) ∧
      operations.toList ++ fields.filterMap Field.operations? = text.toList ∧
      ∀ index, contents[index]?.toList ++ fields.filterMap (Field.content? index) =
        parts[index]?.toList := by
  induction fields generalizing operations contents with
  | nil =>
      unfold readParts at hread
      split at hread
      next => cases hread
      next =>
        obtain ⟨rfl, rfl⟩ := Prod.mk.inj (Except.ok.inj hread)
        simp
  | cons field rest ih =>
      rw [readParts] at hread
      split at hread
      -- the operations part: it came first, so the text is its own
      next hname =>
        split at hread
        next => cases hread
        next hfirst =>
          obtain rfl : operations = none := by simpa using hfirst
          split at hread
          next => cases hread
          next bytes hbytes =>
            have hdata := Field.data_of_read hbytes
            obtain ⟨hbroken, husable, htext, hparts⟩ := ih hread
            refine ⟨hbroken, ?_, ?_, ?_⟩
            · intro other hother
              rcases List.mem_cons.mp hother with rfl | hrest
              · exact ⟨⟨bytes, hdata⟩, Or.inl hname⟩
              · exact husable other hrest
            · simpa [Field.operations?, hname, hdata, Except.toOption] using htext
            · intro index
              simpa [Field.content?, hname] using hparts index
      next hother =>
        split at hread
        -- a content part: the first of its index, so it is the one kept
        next hname =>
          split at hread
          next => cases hread
          next found hindex =>
            split at hread
            next => cases hread
            next bytes hbytes =>
              split at hread
              next => cases hread
              next hnew =>
                have hdata := Field.data_of_read hbytes
                have hnone : contents[found]? = none := by simpa using hnew
                obtain ⟨hbroken, husable, htext, hparts⟩ := ih hread
                refine ⟨hbroken, ?_, ?_, ?_⟩
                · intro other hmem
                  rcases List.mem_cons.mp hmem with rfl | hrest
                  · exact ⟨⟨bytes, hdata⟩, Or.inr ⟨hname, by simp [hindex]⟩⟩
                  · exact husable other hrest
                · simpa [Field.operations?, hname] using htext
                · intro index
                  by_cases heq : found = index
                  · subst heq
                    simpa [Field.content?, hname, hindex, hdata, hnone, Except.toOption]
                      using hparts found
                  · have hstay := ExtTreeMap.getElem?_insert_of_ne contents bytes heq
                    simpa [Field.content?, hindex, heq, hstay] using hparts index
        next => cases hread

/-- What the loop makes of a whole form. -/
theorem readParts_whole {multipart : Multipart} {text : Option Bytes}
    {parts : ExtTreeMap Nat Bytes}
    (hread : readParts multipart.broken multipart.fields none ∅ = .ok (text, parts)) :
    multipart.broken = none ∧ (∀ field ∈ multipart.fields, field.Usable) ∧
      multipart.operations = text.toList ∧
      ∀ index, multipart.contents index = parts[index]?.toList := by
  obtain ⟨hbroken, husable, htext, hparts⟩ := readParts_ok hread
  refine ⟨hbroken, husable, ?_, ?_⟩
  · simpa [Multipart.operations] using htext
  · intro index
    simpa [Multipart.contents] using hparts index

/-- Parts of which none comes twice are all taken. -/
theorem readParts_of_single {fields : List Field} {operations : Option Bytes}
    {contents : ExtTreeMap Nat Bytes} (husable : ∀ field ∈ fields, field.Usable)
    (hoperations : (operations.toList ++ fields.filterMap Field.operations?).length ≤ 1)
    (hcontents : ∀ index,
      (contents[index]?.toList ++ fields.filterMap (Field.content? index)).length ≤ 1) :
    ∃ text parts, readParts none fields operations contents = .ok (text, parts) := by
  induction fields generalizing operations contents with
  | nil => exact ⟨operations, contents, rfl⟩
  | cons field rest ih =>
      obtain ⟨⟨bytes, hdata⟩, hknown⟩ := husable field List.mem_cons_self
      have hrest : ∀ other ∈ rest, other.Usable :=
        fun other hother => husable other (List.mem_cons_of_mem _ hother)
      rw [readParts]
      rcases hknown with hname | ⟨hname, hindex⟩
      · -- a second operations part would make two of them
        have hfirst : operations = none := by
          cases operations with
          | none => rfl
          | some text =>
              simp [Field.operations?, hname, hdata, Except.toOption] at hoperations
        subst hfirst
        simp only [hname, ↓reduceIte, Option.isSome_none, Bool.false_eq_true,
          Field.read_ok hdata]
        apply ih hrest
        · simpa [Field.operations?, hname, hdata, Except.toOption] using hoperations
        · intro index
          simpa [Field.content?, hname] using hcontents index
      · obtain ⟨found, hfound⟩ := Option.isSome_iff_exists.mp hindex
        have hnew : contents[found]? = none := by
          cases hlookup : contents[found]? with
          | none => rfl
          | some earlier =>
              have hcount := hcontents found
              simp [Field.content?, hname, hfound, hdata, hlookup, Except.toOption] at hcount
        simp only [hname, Option.some.injEq, String.reduceEq, ↓reduceIte, hfound,
          Field.read_ok hdata, hnew, Option.isSome_none, Bool.false_eq_true]
        apply ih hrest
        · simpa [Field.operations?, hname] using hoperations
        · intro index
          by_cases heq : found = index
          · subst heq
            simpa [Field.content?, hname, hfound, hdata, hnew, Except.toOption]
              using hcontents found
          · have hstay := ExtTreeMap.getElem?_insert_of_ne contents bytes heq
            simpa [Field.content?, hfound, heq, hstay] using hcontents index

/-- An operation with the content its form has for it. -/
def WireOp.Matches (op : WireOp) (content : Option Bytes) : Prop :=
  op.action = some "put" ∧ content.isSome ∨ op.action = some "delete" ∧ content = none

def WireOp.parsed (op : WireOp) (content : Option Bytes) : ParsedOp where
  path := op.path.getD ""
  parentHash := op.parentHash
  kind := match content with
    | some content => .put op.contentHash op.encPath content
    | none => .delete

theorem parseOp_ok {serde : Serde} {index : Nat} {op : WireOp} {parsed : ParsedOp}
    {contents rest : ExtTreeMap Nat Bytes}
    (hparse : parseOp serde index op contents = .ok (parsed, rest)) :
    op.Matches contents[index]? ∧ ∀ later, later ≠ index → rest[later]? = contents[later]? := by
  unfold parseOp at hparse
  split at hparse
  next haction =>
    split at hparse
    next => cases hparse
    next content hcontent =>
      obtain ⟨_, rfl⟩ := Prod.mk.inj (Except.ok.inj hparse)
      -- a put takes the content of its own index out
      refine ⟨Or.inl ⟨haction, by simp [hcontent]⟩, ?_⟩
      intro later hne
      exact ExtTreeMap.getElem?_erase_of_ne contents (Ne.symm hne)
  next =>
    split at hparse
    next haction =>
      split at hparse
      next => cases hparse
      next hnone =>
        obtain ⟨_, rfl⟩ := Prod.mk.inj (Except.ok.inj hparse)
        exact ⟨Or.inr ⟨haction, by simpa using hnone⟩, fun _ _ => rfl⟩
    next => cases hparse

theorem parseOp_of_matches (serde : Serde) {index : Nat} {op : WireOp}
    {contents : ExtTreeMap Nat Bytes} (hmatches : op.Matches contents[index]?) :
    ∃ rest, parseOp serde index op contents = .ok (op.parsed contents[index]?, rest) := by
  rcases hmatches with ⟨haction, hsome⟩ | ⟨haction, hnone⟩
  · obtain ⟨content, hcontent⟩ := Option.isSome_iff_exists.mp hsome
    exact ⟨contents.erase index, by simp [parseOp, haction, hcontent, WireOp.parsed]⟩
  · exact ⟨contents, by simp [parseOp, haction, hnone, WireOp.parsed]⟩

/-- The operations are read exactly when each one matches its content; an
operation does not touch the contents of later ones. -/
theorem parseOps_eq_ok_iff (serde : Serde) {index : Nat} {ops : List WireOp}
    {contents : ExtTreeMap Nat Bytes} {parsed : List ParsedOp} :
    parseOps serde index ops contents = .ok parsed ↔
      (∀ (i : Nat) (op : WireOp), ops[i]? = some op → op.Matches contents[index + i]?) ∧
      parsed = ops.mapIdx fun i op => op.parsed contents[index + i]? := by
  induction ops generalizing index contents parsed with
  | nil => simp [parseOps, eq_comm]
  | cons op rest ih =>
      -- what the first operation takes out is below every later index
      have hfirst : ∀ {left : ExtTreeMap Nat Bytes} {first : ParsedOp},
          parseOp serde index op contents = .ok (first, left) →
          ∀ i, left[index + 1 + i]? = contents[index + (i + 1)]? := by
        intro left first hparse i
        rw [(parseOp_ok hparse).2 _ (by omega)]
        congr 1
        omega
      constructor
      · intro hparse
        rw [parseOps] at hparse
        split at hparse
        next => cases hparse
        next first left hop =>
          split at hparse
          next => cases hparse
          next others hothers =>
            obtain rfl := Except.ok.inj hparse
            obtain ⟨hmatches, rfl⟩ := ih.mp hothers
            obtain ⟨_, hparsed⟩ := parseOp_of_matches serde (parseOp_ok hop).1
            rw [hop] at hparsed
            obtain ⟨rfl, _⟩ := Prod.mk.inj (Except.ok.inj hparsed)
            simp only [hfirst hop] at hmatches ⊢
            refine ⟨?_, by simp [List.mapIdx_cons]⟩
            intro i other hother
            cases i with
            | zero =>
                obtain rfl : op = other := by simpa using hother
                exact (parseOp_ok hop).1
            | succ i => exact hmatches i other (by simpa using hother)
      · rintro ⟨hmatches, rfl⟩
        obtain ⟨left, hop⟩ := parseOp_of_matches serde (hmatches 0 op (by simp))
        have hothers := (@ih (index + 1) left _).mpr ⟨fun i other hother => by
          rw [hfirst hop]
          exact hmatches (i + 1) other (by simpa using hother), rfl⟩
        simp only [hfirst hop] at hothers
        rw [parseOps]
        simp only [Nat.add_zero] at hop
        simp only [hop, hothers, List.mapIdx_cons, Nat.add_zero]

theorem readOperations_eq_ok_iff {serde : Serde} {text : Bytes} {ops : List WireOp} :
    readOperations serde text = .ok ops ↔
      ∃ value values, serde.parse text = some value ∧
        value.get "operations" = some (.array values) ∧ values.mapM WireOp.ofJson = some ops := by
  constructor
  · intro hread
    unfold readOperations at hread
    split at hread
    next => cases hread
    next value hvalue =>
      split at hread
      next => cases hread
      next values hvalues =>
        split at hread
        next => cases hread
        next found hops =>
          obtain rfl := Except.ok.inj hread
          obtain ⟨member, hmember, harray⟩ := Option.bind_eq_some_iff.mp hvalues
          unfold Json.asArray at harray
          split at harray
          next =>
            obtain rfl := Option.some.inj harray
            exact ⟨value, _, hvalue, hmember, hops⟩
          next => cases harray
  · rintro ⟨value, values, hvalue, hmember, hops⟩
    simp [readOperations, hvalue, hmember, Json.asArray, hops]

theorem keys_find?_eq_none_iff (contents : ExtTreeMap Nat Bytes) (bound : Nat) :
    (contents.keys.find? fun index => decide (bound ≤ index)) = none ↔
      ∀ index, bound ≤ index → contents[index]? = none := by
  rw [List.find?_eq_none]
  constructor
  · intro hnone index hbound
    by_contra hsome
    have hmem : index ∈ contents := by
      rw [ExtTreeMap.mem_iff_isSome_getElem?]
      exact Option.isSome_iff_ne_none.mpr hsome
    exact hnone index (ExtTreeMap.mem_keys.mpr hmem) (by simpa using hbound)
  · intro hnone index hkey hbound
    have hmem := ExtTreeMap.mem_keys.mp hkey
    rw [ExtTreeMap.mem_iff_isSome_getElem?, hnone index (by simpa using hbound)] at hmem
    cases hmem

/-- The operations of a well-formed form match its contents. -/
theorem WellFormed.matches {serde : Serde} {multipart : Multipart} {ops : List WireOp}
    (hform : WellFormed serde multipart ops) {index : Nat} {op : WireOp}
    (hop : ops[index]? = some op) : op.Matches (multipart.contents index).head? := by
  rcases hform.actions op (List.mem_of_getElem? hop) with haction | haction
  · refine Or.inl ⟨haction, ?_⟩
    obtain ⟨content, hcontent⟩ := List.length_eq_one_iff.mp (hform.puts index op hop haction)
    simp [hcontent]
  · exact Or.inr ⟨haction, by simp [hform.deletes index op hop haction]⟩

theorem WellFormed.contents_length_le {serde : Serde} {multipart : Multipart} {ops : List WireOp}
    (hform : WellFormed serde multipart ops) (index : Nat) :
    (multipart.contents index).length ≤ 1 := by
  by_cases hbound : ops.length ≤ index
  · simp [hform.beyond index hbound]
  · have hop : ops[index]? = some (ops.get ⟨index, by omega⟩) := by simp
    rcases hform.actions _ (List.mem_of_getElem? hop) with haction | haction
    · exact (hform.puts index _ hop haction).le
    · simp [hform.deletes index _ hop haction]

/-- A form is accepted exactly when it is well formed, and then it is read as
its operations in order, each put with the one content of its index. -/
theorem parseBatch_eq_ok_iff (serde : Serde) (multipart : Multipart) (parsed : List ParsedOp) :
    parseBatch serde multipart = .ok parsed ↔
      ∃ ops, WellFormed serde multipart ops ∧
        parsed = ops.mapIdx fun index op => op.parsed (multipart.contents index).head? := by
  constructor
  · intro hparse
    unfold parseBatch at hparse
    split at hparse
    next => cases hparse
    next => cases hparse
    next text parts hread =>
      obtain ⟨hbroken, husable, htext, hcontents⟩ := readParts_whole hread
      split at hparse
      next => cases hparse
      next ops hops =>
        split at hparse
        next => cases hparse
        next hstray =>
          obtain ⟨hmatches, rfl⟩ := (parseOps_eq_ok_iff serde).mp hparse
          simp only [Nat.zero_add] at hmatches
          have hbeyond := (keys_find?_eq_none_iff parts ops.length).mp hstray
          obtain ⟨value, values, hvalue, hmember, hdecode⟩ := readOperations_eq_ok_iff.mp hops
          refine ⟨ops, ⟨hbroken, husable, ⟨text, value, values, ?_, hvalue, hmember, hdecode⟩,
            ?_, ?_, ?_, ?_⟩, ?_⟩
          · simpa using htext
          · intro op hop
            obtain ⟨index, hindex⟩ := List.getElem?_of_mem hop
            rcases hmatches index op hindex with ⟨haction, _⟩ | ⟨haction, _⟩
            · exact Or.inl haction
            · exact Or.inr haction
          · intro index op hop haction
            rcases hmatches index op hop with ⟨_, hsome⟩ | ⟨hdelete, _⟩
            · obtain ⟨content, hcontent⟩ := Option.isSome_iff_exists.mp hsome
              simp [hcontents, hcontent]
            · simp [haction] at hdelete
          · intro index op hop haction
            rcases hmatches index op hop with ⟨hput, _⟩ | ⟨_, hnone⟩
            · simp [haction] at hput
            · simp [hcontents, hnone]
          · intro index hbound
            simp [hcontents, hbeyond index hbound]
          · simp [hcontents]
  · rintro ⟨ops, hform, rfl⟩
    obtain ⟨text, value, values, htext, hvalue, hmember, hdecode⟩ := hform.operations
    have hops := readOperations_eq_ok_iff.mpr ⟨value, values, hvalue, hmember, hdecode⟩
    -- no part comes twice in a well-formed form, so the loop takes them all
    obtain ⟨found, parts, hread⟩ :=
      @readParts_of_single multipart.fields none ∅ hform.usable
        (by simpa [Multipart.operations] using (congrArg List.length htext).le)
        (fun index => by simpa [Multipart.contents] using hform.contents_length_le index)
    rw [← hform.complete] at hread
    obtain ⟨_, _, hfound, hcontents⟩ := readParts_whole hread
    have hlookup : ∀ index, (multipart.contents index).head? = parts[index]? := by
      intro index
      simp [hcontents]
    have hsome : found = some text := by
      rw [htext] at hfound
      cases found with
      | none => simp at hfound
      | some other => simpa [eq_comm] using hfound
    have hstray := (keys_find?_eq_none_iff parts ops.length).mpr fun index hbound => by
      rw [← hlookup, hform.beyond index hbound]
      rfl
    unfold parseBatch
    simp only [hread, hsome, hops, hstray]
    refine (parseOps_eq_ok_iff serde).mpr ⟨?_, by simp [hlookup]⟩
    intro index op hop
    rw [Nat.zero_add, ← hlookup]
    exact hform.matches hop

/-! ## A batch and its operations one by one -/

/-- The bytes of a put are within the limit. -/
def ParsedOp.Fits (maxFileBytes : Nat) (op : ParsedOp) : Prop :=
  match op.kind with
  | .put _ _ content => content.length ≤ maxFileBytes
  | .delete => True

/-- A header that arrives as it was sent. -/
def Arrives (value : String) : Prop := headerStr (some (delivered value)) = some value

theorem delivered_eq_self_iff {value : String} :
    delivered value = value ↔
      (∀ c ∈ value.toList.head?, isBlank c = false) ∧
        ∀ c ∈ value.toList.getLast?, isBlank c = false := by
  constructor
  · intro hsame
    -- nothing was dropped at either end, so neither end is blank
    have hchars : (value.toList.dropWhile isBlank).rdropWhile isBlank = value.toList := by
      have htext := congrArg String.toList hsame
      rwa [delivered, String.toList_ofList] at htext
    have hdrop : value.toList.dropWhile isBlank = value.toList := by
      refine (List.dropWhile_sublist isBlank).eq_of_length_le ?_
      conv_lhs => rw [← hchars]
      exact (List.rdropWhile_prefix isBlank _).length_le
    refine ⟨fun c hhead => ?_, fun c hlast => ?_⟩
    · rw [← hdrop] at hhead
      exact Ends.head?_dropWhile c hhead
    · rw [← hchars] at hlast
      exact Ends.getLast?_rdropWhile c hlast
  · rintro ⟨hhead, hlast⟩
    rw [delivered, Ends.dropWhile_eq_self hhead, Ends.rdropWhile_eq_self hlast,
      String.ofList_toList]

/-- Exactly visible ASCII with no blank at the ends arrives as it was sent. -/
theorem arrives_iff {value : String} :
    Arrives value ↔
      (∀ c ∈ value.toList, isVisibleAscii c = true) ∧
        (∀ c ∈ value.toList.head?, isBlank c = false) ∧
          ∀ c ∈ value.toList.getLast?, isBlank c = false := by
  rw [← delivered_eq_self_iff, Arrives, headerStr, Option.filter_eq_some_iff, Option.some.injEq,
    List.all_eq_true, and_comm]

instance (value : String) : Decidable (Arrives value) :=
  inferInstanceAs (Decidable (headerStr (some (delivered value)) = some value))

/-- An operation that a request of its own carries: its head is not refused, its
path is not empty, and its headers arrive as they were sent. -/
structure ParsedOp.Carried (http : Http) (op : ParsedOp) : Prop where
  accepted : http.refuses op.path op.headers = none
  path : op.path ≠ ""
  parentHash : ∀ value ∈ op.headers.parentHash, Arrives value
  contentHash : ∀ value ∈ op.headers.contentHash, Arrives value
  encPath : ∀ value ∈ op.headers.encPath, Arrives value

instance (http : Http) (op : ParsedOp) : Decidable (op.Carried http) :=
  decidable_of_iff
    (http.refuses op.path op.headers = none ∧ op.path ≠ "" ∧
      (∀ value ∈ op.headers.parentHash, Arrives value) ∧
      (∀ value ∈ op.headers.contentHash, Arrives value) ∧
      ∀ value ∈ op.headers.encPath, Arrives value)
    ⟨fun ⟨haccepted, hpath, hparent, hcontent, henc⟩ =>
      ⟨haccepted, hpath, hparent, hcontent, henc⟩,
    fun ⟨haccepted, hpath, hparent, hcontent, henc⟩ =>
      ⟨haccepted, hpath, hparent, hcontent, henc⟩⟩

theorem headerStr_delivered {header : Option String} (harrives : ∀ value ∈ header, Arrives value) :
    headerStr (header.map delivered) = header := by
  cases header with
  | none => rfl
  | some value => exact harrives value rfl

/-- The handlers do with an absent parent hash what they do with an empty one. -/
theorem serve_parentHash (config : Config) (moment : Moment) (userId : String) (op : ParsedOp)
    (state : State) :
    (moment.call userId op.request).serve config state =
      match op.kind with
      | .put contentHash encPath content =>
          (moment.call userId
            (.put ⟨op.path, op.parentHash, contentHash, encPath⟩ content)).serve config state
      | .delete => (moment.call userId (.delete op.path op.parentHash)).serve config state := by
  obtain ⟨path, parentHash, kind⟩ := op
  cases kind with
  | put contentHash encPath content =>
      cases parentHash with
      | none => rfl
      | some parentHash => rfl
  | delete =>
      cases parentHash with
      | none => rfl
      | some parentHash => rfl

theorem sendSingle_eq_serve (config : Config) {http : Http} {maxFileBytes : Nat} (userId : String)
    (moment : Moment) {op : ParsedOp} (hfits : op.Fits maxFileBytes) (hcarried : op.Carried http)
    (state : State) :
    sendSingle config http maxFileBytes userId moment op state =
      (moment.call userId op.request).serve config state := by
  obtain ⟨haccepted, hpath, hparent, hcontent, henc⟩ := hcarried
  rw [serve_parentHash]
  simp only [sendSingle, haccepted, if_neg hpath]
  obtain ⟨path, parentHash, kind⟩ := op
  cases kind with
  | put contentHash encPath content =>
      have hsize : ¬ content.length > maxFileBytes := Nat.not_lt.mpr hfits
      simp only [putFile, if_neg hsize, headerStr_delivered hparent, headerStr_delivered hcontent,
        headerStr_delivered henc]
      rfl
  | delete =>
      simp only [deleteFile, headerStr_delivered hparent]
      rfl

theorem response_of_operationResult {path : String} {outcome : Except ApiError Outcome}
    {result : BatchOperationResult} (hresult : operationResult path outcome = .ok result) :
    response outcome = (result.status, result.conflict) := by
  unfold operationResult at hresult
  split at hresult
  next =>
    obtain rfl := Except.ok.inj hresult
    rfl
  next =>
    obtain rfl := Except.ok.inj hresult
    rfl
  next =>
    obtain rfl := Except.ok.inj hresult
    rfl
  next => cases hresult

/-- A batch that ends without an internal error leaves the state, and gives the
answers, of its operations sent one by one. -/
theorem sendSingly_of_applyOperations (config : Config) {http : Http} {maxFileBytes : Nat}
    (userId : String) {moments : Nat → Moment} {ops : List ParsedOp}
    (hfits : ∀ op ∈ ops, op.Fits maxFileBytes) (hcarried : ∀ op ∈ ops, op.Carried http)
    {state after : State} {results : List BatchOperationResult}
    (happly : applyOperations config userId moments ops state = (.ok results, after)) :
    sendSingly config http maxFileBytes userId moments ops state =
      (results.map fun result => (result.status, result.conflict), after) := by
  induction ops generalizing moments state results with
  | nil =>
      obtain ⟨hresults, rfl⟩ := Prod.mk.inj happly
      obtain rfl := Except.ok.inj hresults
      rfl
  | cons op rest ih =>
      rw [applyOperations] at happly
      rw [sendSingly, sendSingle_eq_serve config userId _ (hfits op List.mem_cons_self)
        (hcarried op List.mem_cons_self)]
      -- both run the same handler on the same state
      generalize ((moments 0).call userId op.request).serve config state = served at happly ⊢
      obtain ⟨outcome, middle⟩ := served
      simp only at happly ⊢
      split at happly
      next => cases happly
      next result hresult =>
        split at happly
        next => cases happly
        next others last hrest =>
          obtain ⟨hresults, rfl⟩ := Prod.mk.inj happly
          obtain rfl := Except.ok.inj hresults
          rw [ih (fun op hop => hfits op (List.mem_cons_of_mem _ hop))
              (fun op hop => hcarried op (List.mem_cons_of_mem _ hop)) hrest,
            response_of_operationResult hresult]
          rfl

end ObSink.Server
