import ObSink.Engine.Effect
import ObSink.Server.Batch

/-! # The form of a batch

`build_batch_form` of `core/src/api_client.rs`, against the server's reading of
the form in `Server.Batch`: what the server makes of a batch is the operations
the client put into it, in order.
-/

namespace ObSink.Engine

open Aead (Nonce)
open Server (Field Json Multipart ParsedOp Serde WellFormed WireOp)

/-- One batch operation as the server sees it (path token, no bytes). -/
structure WireBatchOperation where
  action : String
  path : String
  parentHash : Option String
  contentHash : Option String
  encPath : Option String
  deriving DecidableEq, Repr

def optionalMember (key : String) (value : Option String) : List (String × Json) :=
  (value.map fun text => (key, Json.string text)).toList

/-- An absent field is left out; the keys of an object are in order. -/
def WireBatchOperation.toJson (op : WireBatchOperation) : Json :=
  .object
    ([("action", .string op.action)] ++ optionalMember "contentHash" op.contentHash ++
      optionalMember "encPath" op.encPath ++ optionalMember "parentHash" op.parentHash ++
      [("path", .string op.path)])

def wireBatchOperation (crypto : Crypto) (nonce : Nonce) : BatchOp → WireBatchOperation
  | .put path parentHash contentHash _ =>
      { action := "put"
        path := crypto.pathToken path
        parentHash
        contentHash := some contentHash
        encPath := some (crypto.encryptPath nonce path) }
  | .delete path parentHash =>
      { action := "delete"
        path := crypto.pathToken path
        parentHash
        contentHash := none
        encPath := none }

/-- The content parts, one for each put, named by the index of its operation. -/
def contentFields : (index : Nat) → List BatchOp → List Field
  | _, [] => []
  | index, .put _ _ _ content :: rest =>
      ⟨some "content", some (Text.numeral index), .ok content⟩ :: contentFields (index + 1) rest
  | index, .delete _ _ :: rest => contentFields (index + 1) rest

def operationsJson (crypto : Crypto) (nonces : Nat → Nonce) (ops : List BatchOp) : Json :=
  .object [("operations",
    .array ((ops.mapIdx fun index op => wireBatchOperation crypto (nonces index) op).map
      WireBatchOperation.toJson))]

/-- The multipart form for one batch attempt, plus the real paths in operation
order. Every encrypted path has a nonce of its own. -/
def buildBatchForm (serde : Serde) (crypto : Crypto) (nonces : Nat → Nonce) (ops : List BatchOp) :
    Multipart × List String :=
  let text := serde.render (operationsJson crypto nonces ops)
  ({ fields := contentFields 0 ops ++ [⟨some "operations", none, .ok text⟩]
     broken := none },
    ops.map BatchOp.path)

/-- An operation as the client means it to arrive. -/
def sentOp (crypto : Crypto) (nonce : Nonce) : BatchOp → ParsedOp
  | .put path parentHash contentHash content =>
      ⟨crypto.pathToken path, parentHash,
        .put (some contentHash) (some (crypto.encryptPath nonce path)) content⟩
  | .delete path parentHash => ⟨crypto.pathToken path, parentHash, .delete⟩

/-- JSON that is read back as it was written. -/
def ReadsBack (serde : Serde) (value : Json) : Prop :=
  serde.parse (serde.render value) = some value

def WireBatchOperation.decoded (op : WireBatchOperation) : WireOp :=
  ⟨some op.action, some op.path, op.parentHash, op.contentHash, op.encPath⟩

theorem ofJson_toJson (op : WireBatchOperation) : WireOp.ofJson op.toJson = some op.decoded := by
  obtain ⟨action, path, parentHash, contentHash, encPath⟩ := op
  cases parentHash <;> cases contentHash <;> cases encPath <;> rfl

theorem mapM_ofJson_map_toJson (ops : List WireBatchOperation) :
    (ops.map WireBatchOperation.toJson).mapM WireOp.ofJson =
      some (ops.map WireBatchOperation.decoded) := by
  induction ops with
  | nil => rfl
  | cons op rest ih => simp [List.mapM_cons, ofJson_toJson, ih]

/-- The bytes of a put. -/
def content? : BatchOp → Option Bytes
  | .put _ _ _ content => some content
  | .delete _ _ => none

theorem contentFields_usable {index : Nat} {ops : List BatchOp}
    (hlength : index + ops.length ≤ 2 ^ 64) {field : Field}
    (hfield : field ∈ contentFields index ops) :
    field.Usable ∧ field.name = some "content" := by
  induction ops generalizing index with
  | nil => cases hfield
  | cons op rest ih =>
      simp only [List.length_cons] at hlength
      have hrest := @ih (index + 1) (by omega)
      cases op with
      | put path parentHash contentHash content =>
          rcases List.mem_cons.mp hfield with rfl | hlater
          · refine ⟨⟨⟨content, rfl⟩, Or.inr ⟨rfl, ?_⟩⟩, rfl⟩
            rw [Field.index, Option.bind_some, Text.number?_numeral (by omega)]
            rfl
          · exact hrest hlater
      | delete path parentHash => exact hrest hfield

/-- The content parts hold the bytes of each put under its index. -/
theorem contentFields_contents {index : Nat} {ops : List BatchOp}
    (hlength : index + ops.length ≤ 2 ^ 64) (wanted : Nat) :
    (contentFields index ops).filterMap (Field.content? (index + wanted)) =
      (ops[wanted]?.bind content?).toList ∧
    ∀ earlier, earlier < index →
      (contentFields index ops).filterMap (Field.content? earlier) = [] := by
  induction ops generalizing index wanted with
  | nil => simp [contentFields]
  | cons op rest ih =>
      simp only [List.length_cons] at hlength
      have hlater := fun wanted => (@ih (index + 1) (by omega) wanted).1
      have hearlier := (@ih (index + 1) (by omega) 0).2
      cases op with
      | put path parentHash contentHash content =>
          have hindex : Field.index ⟨some "content", some (Text.numeral index), .ok content⟩ =
              some index := by
            rw [Field.index, Option.bind_some, Text.number?_numeral (by omega)]
          -- the part of this put counts for its own index only
          have hother : ∀ other, other ≠ index →
              (contentFields index (.put path parentHash contentHash content :: rest)).filterMap
                (Field.content? other) =
              (contentFields (index + 1) rest).filterMap (Field.content? other) := by
            intro other hne
            rw [contentFields, List.filterMap_cons]
            simp only [Field.content?, hindex, Option.some.injEq, Ne.symm hne, and_false,
              ↓reduceIte]
          constructor
          · cases wanted with
            | zero =>
                rw [contentFields, List.filterMap_cons]
                simp [Field.content?, hindex, hearlier index (by omega), Except.toOption, content?]
            | succ wanted =>
                rw [hother _ (by omega), show index + (wanted + 1) = index + 1 + wanted by omega,
                  hlater wanted]
                rfl
          · intro earlier hlt
            rw [hother _ (by omega)]
            exact hearlier earlier (by omega)
      | delete path parentHash =>
          constructor
          · cases wanted with
            | zero => exact hearlier index (by omega)
            | succ wanted =>
                rw [contentFields, show index + (wanted + 1) = index + 1 + wanted by omega,
                  hlater wanted]
                rfl
          · intro earlier hlt
            exact hearlier earlier (by omega)

section

variable {serde : Serde} {crypto : Crypto} {nonces : Nat → Nonce} {ops : List BatchOp}

theorem contents_buildBatchForm (hlength : ops.length ≤ 2 ^ 64) (index : Nat) :
    (buildBatchForm serde crypto nonces ops).1.contents index =
      (ops[index]?.bind content?).toList := by
  have hcontents := (@contentFields_contents 0 ops (by omega) index).1
  rw [Nat.zero_add] at hcontents
  simp [buildBatchForm, Multipart.contents, hcontents, Field.content?]

theorem operations_buildBatchForm (hlength : ops.length ≤ 2 ^ 64) :
    (buildBatchForm serde crypto nonces ops).1.operations =
      [serde.render (operationsJson crypto nonces ops)] := by
  have hnone : (contentFields 0 ops).filterMap Field.operations? = [] := by
    rw [List.filterMap_eq_nil_iff]
    intro field hfield
    have hname := (contentFields_usable (by omega) hfield).2
    simp [Field.operations?, hname]
  simp [buildBatchForm, Multipart.operations, hnone, Field.operations?, Except.toOption]

/-- The form of a batch holds the operations the client wrote into it. -/
theorem wellFormed_buildBatchForm (hlength : ops.length ≤ 2 ^ 64)
    (hreads : ReadsBack serde (operationsJson crypto nonces ops)) :
    WellFormed serde (buildBatchForm serde crypto nonces ops).1
      (ops.mapIdx fun index op => (wireBatchOperation crypto (nonces index) op).decoded) := by
  have hwire : ∀ {index : Nat} {wire : WireOp},
      (ops.mapIdx fun index op => (wireBatchOperation crypto (nonces index) op).decoded)[index]? =
        some wire →
      ∃ op, ops[index]? = some op ∧
        wire = (wireBatchOperation crypto (nonces index) op).decoded := by
    intro index wire hget
    rw [List.getElem?_mapIdx] at hget
    obtain ⟨op, hop, rfl⟩ := Option.map_eq_some_iff.mp hget
    exact ⟨op, hop, rfl⟩
  constructor
  case complete => rfl
  case usable =>
    intro field hfield
    rcases List.mem_append.mp hfield with hcontent | hlast
    · exact (contentFields_usable (by omega) hcontent).1
    · obtain rfl := List.mem_singleton.mp hlast
      exact ⟨⟨_, rfl⟩, Or.inl rfl⟩
  case operations =>
    refine ⟨_, _, _, operations_buildBatchForm hlength, hreads, rfl, ?_⟩
    rw [mapM_ofJson_map_toJson]
    congr 1
    apply List.ext_getElem?
    intro index
    simp only [List.getElem?_map, List.getElem?_mapIdx, Option.map_map]
    rfl
  case actions =>
    intro wire hmem
    obtain ⟨index, hget⟩ := List.getElem?_of_mem hmem
    obtain ⟨op, _, rfl⟩ := hwire hget
    cases op with
    | put path parentHash contentHash content => exact Or.inl rfl
    | delete path parentHash => exact Or.inr rfl
  case puts =>
    intro index wire hget haction
    obtain ⟨op, hop, rfl⟩ := hwire hget
    rw [contents_buildBatchForm hlength, hop]
    cases op with
    | put path parentHash contentHash content => rfl
    | delete path parentHash =>
        simp [wireBatchOperation, WireBatchOperation.decoded] at haction
  case deletes =>
    intro index wire hget haction
    obtain ⟨op, hop, rfl⟩ := hwire hget
    rw [contents_buildBatchForm hlength, hop]
    cases op with
    | put path parentHash contentHash content =>
        simp [wireBatchOperation, WireBatchOperation.decoded] at haction
    | delete path parentHash => rfl
  case beyond =>
    intro index hbound
    have hnone : ops[index]? = none := by simpa using hbound
    rw [contents_buildBatchForm hlength, hnone]
    rfl

/-- The server reads the form of a batch as the operations that were sent. -/
theorem parseBatch_buildBatchForm (hlength : ops.length ≤ 2 ^ 64)
    (hreads : ReadsBack serde (operationsJson crypto nonces ops)) :
    Server.parseBatch serde (buildBatchForm serde crypto nonces ops).1 =
      .ok (ops.mapIdx fun index op => sentOp crypto (nonces index) op) := by
  apply (Server.parseBatch_eq_ok_iff _ _ _).mpr
  refine ⟨_, wellFormed_buildBatchForm hlength hreads, ?_⟩
  apply List.ext_getElem?
  intro index
  simp only [List.getElem?_mapIdx, contents_buildBatchForm hlength]
  cases ops[index]? with
  | none => rfl
  | some op =>
      cases op with
      | put path parentHash contentHash content => rfl
      | delete path parentHash => rfl

end

/-- A batch is the sequence of its operations: the form of a batch is read as
the operations it was built from; a form is accepted exactly when it is well
formed, and changes nothing otherwise; and an accepted batch that ends without
an internal error does what its operations do as single requests, when single
requests carry them. -/
theorem batch_is_sequence_of_operations (config : Server.Config) (serde : Serde) (crypto : Crypto)
    (http : Server.Http) (maxFileBytes : Nat) (userId : String) :
    (∀ nonces ops, ops.length ≤ 2 ^ 64 → ReadsBack serde (operationsJson crypto nonces ops) →
      Server.parseBatch serde (buildBatchForm serde crypto nonces ops).1 =
        .ok (ops.mapIdx fun index op => sentOp crypto (nonces index) op)) ∧
    (∀ multipart,
      ((∃ parsed, Server.parseBatch serde multipart = .ok parsed) ↔
        ∃ ops, WellFormed serde multipart ops) ∧
      ∀ moments state error, Server.parseBatch serde multipart = .error error →
        Server.batch config serde userId moments (.ok multipart) state = (.error error, state)) ∧
    ∀ multipart parsed moments state results after,
      Server.parseBatch serde multipart = .ok parsed →
      (∀ op ∈ parsed, op.Fits maxFileBytes) →
      (∀ op ∈ parsed, op.Carried http) →
      Server.batch config serde userId moments (.ok multipart) state = (.ok results, after) →
      Server.sendSingly config http maxFileBytes userId moments parsed state =
        (results.map fun result => (result.status, result.conflict), after) := by
  refine ⟨fun _ _ => parseBatch_buildBatchForm, ?_, ?_⟩
  · intro multipart
    constructor
    · constructor
      · rintro ⟨parsed, hparse⟩
        obtain ⟨ops, hform, _⟩ := (Server.parseBatch_eq_ok_iff _ _ _).mp hparse
        exact ⟨ops, hform⟩
      · rintro ⟨ops, hform⟩
        exact ⟨_, (Server.parseBatch_eq_ok_iff _ _ _).mpr ⟨ops, hform, rfl⟩⟩
    · intro moments state error hreject
      simp only [Server.batch, hreject]
  · intro multipart parsed moments state results after hparse hfits hcarried hbatch
    rw [Server.batch_of_parseBatch hparse] at hbatch
    exact Server.sendSingly_of_applyOperations config userId hfits hcarried hbatch

/-! ## A sample batch -/

/-- A character in a JSON text. -/
def escape (c : Char) : List Char :=
  if c = '"' then ['\\', '"']
  else if c = '\\' then ['\\', '\\']
  else if c = '\n' then ['\\', 'n']
  else if c = '\r' then ['\\', 'r']
  else if c = '\t' then ['\\', 't']
  else if c.toNat = 8 then ['\\', 'b']
  else if c.toNat = 12 then ['\\', 'f']
  else if c.toNat < 32 then
    ['\\', 'u', '0', '0', Nat.digitChar (c.toNat / 16), Nat.digitChar (c.toNat % 16)]
  else [c]

def quoted (text : String) : List Char :=
  '"' :: text.toList.flatMap escape ++ ['"']

mutual

/-- The compact text of a value. -/
def writeJson : Json → List Char
  | .null => "null".toList
  | .bool value => (if value then "true" else "false").toList
  | .number literal => literal.toList
  | .string value => quoted value
  | .array values => '[' :: [','].intercalate (writeValues values) ++ [']']
  | .object members => '\x7b' :: [','].intercalate (writeMembers members) ++ ['\x7d']

def writeValues : List Json → List (List Char)
  | [] => []
  | value :: rest => writeJson value :: writeValues rest

def writeMembers : List (String × Json) → List (List Char)
  | [] => []
  | (key, value) :: rest => (quoted key ++ ':' :: writeJson value) :: writeMembers rest

end

/-- Libraries as far as one value needs them. -/
def serdeOf (value : Json) : Serde where
  parse := fun bytes => if bytes = utf8 (String.ofList (writeJson value)) then some value else none
  render := fun value => utf8 (String.ofList (writeJson value))
  debug := fun text => String.ofList (quoted text)

theorem readsBack_serdeOf (value : Json) : ReadsBack (serdeOf value) value := by
  simp [ReadsBack, serdeOf]

/-- A server that refuses a long target only. -/
def sampleHttp : Server.Http where
  refuses := fun path _ => if 65534 < path.utf8ByteSize then some 414 else none

/-- Two letters for each byte, as a header carries them. -/
def letters (bytes : Bytes) : List Char :=
  bytes.flatMap fun byte => [Char.ofNat (97 + byte.toNat / 16), Char.ofNat (97 + byte.toNat % 16)]

def ofLetters : List Char → Option Bytes
  | [] => some []
  | high :: low :: rest =>
      (ofLetters rest).map (UInt8.ofNat ((high.toNat - 97) * 16 + (low.toNat - 97)) :: ·)
  | [_] => none

def sampleCrypto : Crypto :=
  { Crypto.sample with
    base64Encode := fun bytes => String.ofList (letters bytes)
    base64Decode := fun text => ofLetters text.toList }

/-- A new file, its deletion on the strength of a hash it does not have, and a
second file. -/
def sampleOps : List BatchOp :=
  [.put "a.md" none "h1" [1], .delete "a.md" (some "h0"), .put "b.md" none "h2" [2, 3]]

def sampleSerde : Serde := serdeOf (operationsJson sampleCrypto (fun _ => Aead.zeroNonce) sampleOps)

def sampleMoments : Nat → Server.Moment := fun index => ⟨none, 10 + index, Aead.zeroNonce⟩

/-- The entry the deletion meets. -/
def sampleEntry : FileEntry where
  hash := "h1"
  modified := 10
  size := 1
  encPath := sampleCrypto.encryptPath Aead.zeroNonce "a.md"

theorem batch_of_sample_is_its_operations :
    let form := (buildBatchForm sampleSerde sampleCrypto (fun _ => Aead.zeroNonce) sampleOps).1
    let parsed := sampleOps.mapIdx fun _ op => sentOp sampleCrypto Aead.zeroNonce op
    let token := sampleCrypto.pathToken "a.md"
    Server.parseBatch sampleSerde form = .ok parsed ∧
      (Server.sendSingly Server.sampleConfig sampleHttp 100 "user_1" sampleMoments parsed
        Server.sampleState).1 =
          [(200, none), (409, some ⟨token, some sampleEntry⟩), (200, none)] := by
  have hsequence := batch_is_sequence_of_operations Server.sampleConfig sampleSerde sampleCrypto
    sampleHttp 100 "user_1"
  have hparse := hsequence.1 (fun _ => Aead.zeroNonce) sampleOps (by decide)
    (readsBack_serdeOf _)
  refine ⟨hparse, ?_⟩
  have hresults : (Server.batch Server.sampleConfig sampleSerde "user_1" sampleMoments
      (.ok (buildBatchForm sampleSerde sampleCrypto (fun _ => Aead.zeroNonce) sampleOps).1)
      Server.sampleState).1 =
      .ok [⟨sampleCrypto.pathToken "a.md", 200, none⟩,
        ⟨sampleCrypto.pathToken "a.md", 409,
          some ⟨sampleCrypto.pathToken "a.md", some sampleEntry⟩⟩,
        ⟨sampleCrypto.pathToken "b.md", 200, none⟩] := by
    rw [Server.batch_of_parseBatch hparse]
    decide +kernel
  have hfits : ∀ op ∈ sampleOps.mapIdx fun _ op => sentOp sampleCrypto Aead.zeroNonce op,
      op.Fits 100 := by
    simp [sampleOps, sentOp, Server.ParsedOp.Fits]
  have hcarried : ∀ op ∈ sampleOps.mapIdx fun _ op => sentOp sampleCrypto Aead.zeroNonce op,
      op.Carried sampleHttp := by
    decide +kernel
  generalize hbatch : Server.batch Server.sampleConfig sampleSerde "user_1" sampleMoments _
    Server.sampleState = served at hresults
  obtain ⟨answer, after⟩ := served
  obtain rfl := hresults
  rw [hsequence.2.2 _ _ sampleMoments Server.sampleState _ after hparse hfits hcarried hbatch]
  rfl

/-- A deletion on the strength of a hash with a blank before it. -/
def blankOps : List BatchOp :=
  [.put "a.md" none "h1" [1], .delete "a.md" (some " h1")]

def blankSerde : Serde := serdeOf (operationsJson sampleCrypto (fun _ => Aead.zeroNonce) blankOps)

/-- In the batch the deletion is refused; on its own it loses the blank, and is
served. -/
theorem blank_is_lost_in_header :
    ¬∀ (config : Server.Config) (serde : Serde) (http : Server.Http) (maxFileBytes : Nat)
      (userId : String) (multipart : Multipart) (parsed : List ParsedOp)
      (moments : Nat → Server.Moment) (state : Server.State)
      (results : List BatchOperationResult) (after : Server.State),
      Server.parseBatch serde multipart = .ok parsed →
      (∀ op ∈ parsed, op.Fits maxFileBytes) →
      Server.batch config serde userId moments (.ok multipart) state = (.ok results, after) →
      Server.sendSingly config http maxFileBytes userId moments parsed state =
        (results.map fun result => (result.status, result.conflict), after) := by
  intro hall
  let form := (buildBatchForm blankSerde sampleCrypto (fun _ => Aead.zeroNonce) blankOps).1
  let parsed := blankOps.mapIdx fun _ op => sentOp sampleCrypto Aead.zeroNonce op
  have hparse : Server.parseBatch blankSerde form = .ok parsed :=
    parseBatch_buildBatchForm (by decide) (readsBack_serdeOf _)
  have hfits : ∀ op ∈ parsed, op.Fits 100 := by
    simp [parsed, blankOps, sentOp, Server.ParsedOp.Fits]
  have hresults : (Server.batch Server.sampleConfig blankSerde "user_1" sampleMoments (.ok form)
      Server.sampleState).1.toOption.map (·.map BatchOperationResult.status) =
        some [200, 409] := by
    rw [Server.batch_of_parseBatch hparse]
    decide +kernel
  have hsingly : (Server.sendSingly Server.sampleConfig sampleHttp 100 "user_1" sampleMoments
      parsed Server.sampleState).1.map Prod.fst = [200, 200] := by
    decide +kernel
  generalize hbatch : Server.batch Server.sampleConfig blankSerde "user_1" sampleMoments (.ok form)
    Server.sampleState = served at hresults
  obtain ⟨answer, after⟩ := served
  cases answer with
  | error error => cases hresults
  | ok results =>
      rw [hall _ _ sampleHttp 100 _ _ _ _ _ _ after hparse hfits hbatch] at hsingly
      have hstatus : results.map BatchOperationResult.status = [200, 409] :=
        Option.some.inj hresults
      rw [List.map_map] at hsingly
      cases hstatus.symm.trans hsingly

end ObSink.Engine
