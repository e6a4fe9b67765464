import ObSink.Engine.HashCache
import ObSink.Lib.JsObject
import ObSink.Web.Scan

/-! # File names as members of objects

`buildWorkingManifest`, `decodeManifest` and `withoutIgnored` of
`web/src/worker/manifest.ts` keep manifests and the hash cache in plain objects
with file names as member names. The native client keeps them in ordered maps;
`Engine.addTombstones`, `Engine.decodeRow` and `Engine.keep` are what it does.
-/

namespace ObSink.Web.Objects

open Engine

structure ScannedFile where
  path : String
  size : Nat
  mtimeMs : Nat
  deriving DecidableEq, Repr

/-- The browser has millisecond mtimes. -/
def statOf (file : ScannedFile) : Stat where
  mtimeSecs := file.mtimeMs / 1000
  mtimeNanos := file.mtimeMs % 1000 * 1000000
  size := file.size

inductive JsError where
  /-- A member of `undefined` was read. -/
  | typeError
  | wrongPassphrase
  deriving DecidableEq, Repr

/-- The members of a `FileEntry`. -/
def entryFields : List String := ["hash", "modified", "size", "deleted", "encPath"]

/-- The members of an entry of the hash cache. -/
def memoFields : List String := ["stat", "hash"]

def workingEntry (file : ScannedFile) (hash : String) : FileEntry where
  hash := hash
  modified := (statOf file).mtimeSecs
  size := file.size

/-- One scanned file. What an index finds is taken for a cache entry, whose
`stat` is looked into. -/
def addFile (crypto : Crypto) (readFile : String → Bytes) (previous : JsObject CacheEntry)
    (built : JsObject FileEntry × JsObject CacheEntry) (file : ScannedFile) :
    Except JsError (JsObject FileEntry × JsObject CacheEntry) :=
  let stat := statOf file
  let add (hash : String) : Except JsError (JsObject FileEntry × JsObject CacheEntry) :=
    .ok (built.1.set file.path (workingEntry file hash), built.2.set file.path ⟨stat, hash⟩)
  match previous.get memoFields file.path with
  | .inherited => .error .typeError
  | .own memo =>
      if memo.stat = stat then add memo.hash else add (crypto.contentHmac (readFile file.path))
  | .undefined => add (crypto.contentHmac (readFile file.path))

/-- One entry of the base, as a tombstone if its path is not `in` the manifest. -/
def addTombstone (now : Nat) (working : JsObject FileEntry) (entry : String × FileEntry) :
    JsObject FileEntry :=
  if working.has entryFields entry.1 || entry.2.deleted then working
  else working.set entry.1 { entry.2 with modified := now, deleted := true }

/-- The members of the cache, if it was written under this key. -/
def previousEntries (crypto : Crypto) (cache : Option HashCache) :
    Std.ExtTreeMap String CacheEntry :=
  match cache with
  | some cache => if cache.keyId = hashCacheKeyId crypto then cache.entries else ∅
  | none => ∅

def buildWorkingManifest (crypto : Crypto) (readFile : String → Bytes) (now : Nat)
    (files : List ScannedFile) (cache : Option HashCache) (base : Manifest) :
    Except JsError (JsObject FileEntry × JsObject CacheEntry) := do
  let previous := JsObject.ofMap (previousEntries crypto cache)
  let (working, next) ← files.foldlM (addFile crypto readFile previous) (.empty, .empty)
  return (base.toList.foldl (addTombstone now) working, next)

/-- One row of the server's manifest under its real path. -/
def decodeRow (crypto : Crypto) (manifest : JsObject FileEntry) (entry : FileEntry) :
    Except JsError (JsObject FileEntry) :=
  if entry.encPath = "" then .ok manifest
  else
    match crypto.decryptPath entry.encPath with
    | .ok path => .ok (manifest.set path entry)
    | .error _ => .error .wrongPassphrase

def decodeManifest (crypto : Crypto) (rows : List FileEntry) :
    Except JsError (JsObject FileEntry) :=
  rows.foldlM (decodeRow crypto) .empty

def withoutIgnored (ignore : IgnoreRules) (manifest : Manifest) : JsObject FileEntry :=
  manifest.toList.foldl
    (fun kept entry => if ignore.isIgnored entry.1 then kept else kept.set entry.1 entry.2) .empty

/-! ## With names that mean nothing else -/

/-- What the memo says of a file, or its HMAC. -/
def hashOf (crypto : Crypto) (readFile : String → Bytes) (memo : Std.ExtTreeMap String CacheEntry)
    (file : ScannedFile) : String :=
  match memo[file.path]? with
  | some entry =>
      if entry.stat = statOf file then entry.hash else crypto.contentHmac (readFile file.path)
  | none => crypto.contentHmac (readFile file.path)

/-- The scanned files in an ordered map. -/
def manifestOf (crypto : Crypto) (readFile : String → Bytes)
    (memo : Std.ExtTreeMap String CacheEntry) (files : List ScannedFile) : Manifest :=
  files.foldl
    (fun manifest file =>
      manifest.insert file.path (workingEntry file (hashOf crypto readFile memo file)))
    ∅

/-! ## The files -/

section Files

variable {crypto : Crypto} {readFile : String → Bytes} {memo : Std.ExtTreeMap String CacheEntry}

/-- The memo is asked for its own entries. -/
def ReadsOwn (memo : Std.ExtTreeMap String CacheEntry) (file : ScannedFile) : Prop :=
  file.path ∈ objectPrototype → file.path ∈ memo

theorem addFile_of_readsOwn {file : ScannedFile} (hreads : ReadsOwn memo file)
    (built : JsObject FileEntry × JsObject CacheEntry) :
    addFile crypto readFile (.ofMap memo) built file =
      .ok (built.1.set file.path (workingEntry file (hashOf crypto readFile memo file)),
        built.2.set file.path ⟨statOf file, hashOf crypto readFile memo file⟩) := by
  cases hfound : memo[file.path]? with
  | some entry =>
      simp only [addFile, JsObject.get, JsObject.ofMap, hashOf, hfound]
      split <;> rfl
  | none =>
      have hnot : file.path ∉ objectPrototype := by
        intro hmem
        have hown := hreads hmem
        rw [Std.ExtTreeMap.mem_iff_isSome_getElem?, hfound] at hown
        cases hown
      simp [addFile, JsObject.get, JsObject.ofMap, JsObject.inherits, hashOf, hfound, hnot]

theorem addFile_of_inherited {file : ScannedFile} (hmem : file.path ∈ objectPrototype)
    (hnot : file.path ∉ memo) (built : JsObject FileEntry × JsObject CacheEntry) :
    addFile crypto readFile (.ofMap memo) built file = .error .typeError := by
  have hnone : memo[file.path]? = none := Std.ExtTreeMap.getElem?_eq_none hnot
  simp [addFile, JsObject.get, JsObject.ofMap, JsObject.inherits, hnone, hmem]

/-- The scan succeeds if and only if the memo is only asked for its own entries. -/
theorem foldlM_addFile (files : List ScannedFile)
    (built : JsObject FileEntry × JsObject CacheEntry) :
    ((∀ file ∈ files, ReadsOwn memo file) ∧
      files.foldlM (addFile crypto readFile (.ofMap memo)) built =
        .ok (files.foldl (fun working file =>
            working.set file.path (workingEntry file (hashOf crypto readFile memo file))) built.1,
          files.foldl (fun next file =>
            next.set file.path ⟨statOf file, hashOf crypto readFile memo file⟩) built.2)) ∨
    ((∃ file ∈ files, ¬ ReadsOwn memo file) ∧
      files.foldlM (addFile crypto readFile (.ofMap memo)) built = .error .typeError) := by
  induction files generalizing built with
  | nil => exact Or.inl ⟨by simp, rfl⟩
  | cons file rest ih =>
      by_cases hreads : ReadsOwn memo file
      · rw [List.foldlM_cons, addFile_of_readsOwn hreads]
        rcases ih (built.1.set file.path (workingEntry file (hashOf crypto readFile memo file)),
          built.2.set file.path ⟨statOf file, hashOf crypto readFile memo file⟩) with
          ⟨hall, hok⟩ | ⟨⟨later, hlater, hnot⟩, herror⟩
        · refine Or.inl ⟨?_, hok⟩
          intro later hlater
          rcases List.mem_cons.mp hlater with rfl | hlater
          · exact hreads
          · exact hall later hlater
        · exact Or.inr ⟨⟨later, List.mem_cons_of_mem _ hlater, hnot⟩, herror⟩
      · refine Or.inr ⟨⟨file, by simp, hreads⟩, ?_⟩
        obtain ⟨hmem, hnot⟩ := Classical.not_imp.mp hreads
        rw [List.foldlM_cons, addFile_of_inherited hmem hnot]
        rfl

/-- Without a file named `__proto__` the object holds the map. -/
theorem foldl_set_files {files : List ScannedFile}
    (hplain : ∀ file ∈ files, file.path ≠ "__proto__")
    (entryOf : ScannedFile → FileEntry) (working : JsObject FileEntry) :
    files.foldl (fun working file => working.set file.path (entryOf file)) working =
      ⟨files.foldl (fun manifest file => manifest.insert file.path (entryOf file)) working.own,
        working.proto⟩ := by
  induction files generalizing working with
  | nil => rfl
  | cons file rest ih =>
      rw [List.foldl_cons, List.foldl_cons, JsObject.set_of_ne working (hplain file (by simp)),
        ih fun later hlater => hplain later (List.mem_cons_of_mem _ hlater)]

/-- A path that is not scanned is no property of the object. -/
theorem foldl_set_files_own {files : List ScannedFile} {path : String}
    (hscanned : (∀ file ∈ files, file.path ≠ path) ∨ path = "__proto__")
    (entryOf : ScannedFile → FileEntry) {working : JsObject FileEntry}
    (hnone : working.own[path]? = none) :
    (files.foldl (fun working file => working.set file.path (entryOf file)) working).own[path]? =
      none := by
  induction files generalizing working with
  | nil => exact hnone
  | cons file rest ih =>
      rw [List.foldl_cons]
      apply ih
      · exact hscanned.imp_left fun hall later hlater => hall later (List.mem_cons_of_mem _ hlater)
      · rcases hscanned with hall | rfl
        · rw [JsObject.set_own_of_ne _ (hall file (by simp))]
          exact hnone
        · exact JsObject.set_own_proto hnone _ _

theorem mem_manifestOf {files : List ScannedFile} {path : String} :
    path ∈ manifestOf crypto readFile memo files ↔ ∃ file ∈ files, file.path = path := by
  have hfold : ∀ manifest : Manifest, path ∈ files.foldl (fun manifest file =>
      manifest.insert file.path (workingEntry file (hashOf crypto readFile memo file))) manifest ↔
      path ∈ manifest ∨ ∃ file ∈ files, file.path = path := by
    induction files with
    | nil => simp
    | cons file rest ih =>
        intro manifest
        rw [List.foldl_cons, ih, Std.ExtTreeMap.mem_insert]
        simp only [Std.LawfulEqCmp.compare_eq_iff_eq, List.mem_cons, exists_eq_or_imp]
        tauto
  rw [manifestOf, hfold]
  simp

end Files

/-! ## The tombstones -/

/-- An inherited name never gets a tombstone. -/
theorem foldl_addTombstone_inherited (now : Nat) {entries : List (String × FileEntry)}
    {path : String} (hpath : path ∈ objectPrototype) (working : JsObject FileEntry) :
    (entries.foldl (addTombstone now) working).own[path]? = working.own[path]? := by
  induction entries generalizing working with
  | nil => rfl
  | cons entry rest ih =>
      rw [List.foldl_cons, ih, addTombstone]
      split
      next => rfl
      next hskip =>
        by_cases hsame : entry.1 = path
        · have hin := JsObject.inherits_of_mem entryFields working hpath
          rw [JsObject.has, hsame, hin] at hskip
          simp at hskip
        · exact JsObject.set_own_of_ne working hsame _

/-- A live entry whose name is inherited stands for a file that was scanned. -/
def TombstonesOwn (current : Manifest) (entry : String × FileEntry) : Prop :=
  entry.2.deleted = false → entry.1 ∉ current → entry.1 ∉ objectPrototype

theorem foldl_addTombstone {now : Nat} {entries : List (String × FileEntry)} {current : Manifest}
    (hown : ∀ entry ∈ entries, TombstonesOwn current entry) :
    entries.foldl (addTombstone now) ⟨current, none⟩ =
      ⟨entries.foldl (Web.addTombstone now) current, none⟩ := by
  induction entries generalizing current with
  | nil => rfl
  | cons entry rest ih =>
      have hstep : addTombstone now ⟨current, none⟩ entry =
          ⟨Web.addTombstone now current entry, none⟩ := by
        by_cases hskip : (current.contains entry.1 || entry.2.deleted) = true
        · have hhas :
              (JsObject.has entryFields ⟨current, none⟩ entry.1 || entry.2.deleted) = true := by
            rw [Bool.or_eq_true] at hskip ⊢
            refine hskip.imp_left fun hmem => ?_
            simp [JsObject.has, hmem]
          rw [addTombstone, Web.addTombstone, if_pos hskip, if_pos hhas]
        · have hlive : current.contains entry.1 = false ∧ entry.2.deleted = false := by
            simpa only [Bool.or_eq_true, not_or, Bool.not_eq_true] using hskip
          have hnot : entry.1 ∉ objectPrototype := by
            apply hown entry (by simp) hlive.2
            rw [Std.ExtTreeMap.mem_iff_contains, hlive.1]
            simp
          have hhas :
              (JsObject.has entryFields ⟨current, none⟩ entry.1 || entry.2.deleted) = false := by
            simp [JsObject.has, JsObject.inherits, hlive, hnot]
          have hne : entry.1 ≠ "__proto__" := by
            intro heq
            rw [heq] at hnot
            exact hnot JsObject.proto_mem_objectPrototype
          rw [addTombstone, Web.addTombstone, if_neg hskip, hhas, if_neg (by simp),
            JsObject.set_of_ne _ hne]
      rw [List.foldl_cons, List.foldl_cons, hstep]
      apply ih
      intro later hlater hlive hnot
      apply hown later (List.mem_cons_of_mem _ hlater) hlive
      -- the manifest only grows
      intro hmem
      apply hnot
      unfold Web.addTombstone
      split
      next => exact hmem
      next => exact Std.ExtTreeMap.mem_insert.mpr (Or.inr hmem)

/-- Asking the growing manifest or the one at the start makes no difference:
the base has each path once. -/
theorem foldl_addTombstone_eq (now : Nat) (current base : Manifest) :
    base.toList.foldl (Web.addTombstone now) current = addTombstones now current base := by
  have hfold : ∀ entries : List (String × FileEntry),
      entries.Pairwise (fun earlier later => earlier.1 ≠ later.1) → ∀ working : Manifest,
      (∀ entry ∈ entries, working.contains entry.1 = current.contains entry.1) →
      entries.foldl (Web.addTombstone now) working =
        entries.foldl (fun working entry =>
          if current.contains entry.1 || entry.2.deleted then working
          else working.insert entry.1 { entry.2 with modified := now, deleted := true })
          working := by
    intro entries
    induction entries with
    | nil => exact fun _ _ _ => rfl
    | cons entry rest ih =>
        intro hpairwise working hsame
        obtain ⟨hdistinct, hrest⟩ := List.pairwise_cons.mp hpairwise
        rw [List.foldl_cons, List.foldl_cons, Web.addTombstone, hsame entry (by simp)]
        apply ih hrest
        intro later hlater
        split
        next => exact hsame later (List.mem_cons_of_mem _ hlater)
        next =>
          rw [Std.ExtTreeMap.contains_insert, hsame later (List.mem_cons_of_mem _ hlater)]
          have hne : (compare entry.1 later.1 == Ordering.eq) = false := by
            simpa using hdistinct later hlater
          rw [hne, Bool.false_or]
  apply hfold
  · refine Std.ExtTreeMap.distinct_keys_toList.imp ?_
    intro earlier later hne heq
    exact hne (by simp [heq])
  · exact fun _ _ => rfl

/-! ## Which names are opaque -/

/-- What the native client makes of the same files and memo. -/
def nativeWorking (crypto : Crypto) (readFile : String → Bytes) (now : Nat)
    (files : List ScannedFile) (cache : Option HashCache) (base : Manifest) : Manifest :=
  addTombstones now (manifestOf crypto readFile (previousEntries crypto cache) files) base

/-- The scan succeeds, and the object has the entries of the native map. -/
def BuildsOpaquely (crypto : Crypto) (readFile : String → Bytes) (now : Nat)
    (files : List ScannedFile) (cache : Option HashCache) (base : Manifest) : Prop :=
  ∃ built, buildWorkingManifest crypto readFile now files cache base = .ok built ∧
    built.1.own = nativeWorking crypto readFile now files cache base

theorem builds_opaquely_iff (crypto : Crypto) (readFile : String → Bytes) (now : Nat)
    (files : List ScannedFile) (cache : Option HashCache) (base : Manifest) :
    BuildsOpaquely crypto readFile now files cache base ↔
      (∀ file ∈ files, file.path ≠ "__proto__" ∧ ReadsOwn (previousEntries crypto cache) file) ∧
      ∀ (path : String) (entry : FileEntry), base[path]? = some entry → entry.deleted = false →
        (∀ file ∈ files, file.path ≠ path) → path ∉ objectPrototype := by
  have hscan :=
    @foldlM_addFile crypto readFile (previousEntries crypto cache) files (.empty, .empty)
  constructor
  · intro hbuilds
    obtain ⟨built, hok, hown⟩ := hbuilds
    rw [buildWorkingManifest] at hok
    rcases hscan with ⟨hreads, hfiles⟩ | ⟨_, herror⟩
    · rw [hfiles] at hok
      obtain rfl := Except.ok.inj hok
      simp only at hown
      -- a name that is lost from the object is a name the native map lacks
      have hlost : ∀ path ∈ objectPrototype,
          ((∀ file ∈ files, file.path ≠ path) ∨ path = "__proto__") →
          (nativeWorking crypto readFile now files cache base)[path]? = none := by
        intro path hmem hscanned
        rw [← hown, foldl_addTombstone_inherited now hmem]
        exact foldl_set_files_own hscanned _ (by simp [JsObject.empty])
      refine ⟨fun file hfile => ⟨?_, hreads file hfile⟩, ?_⟩
      · intro hproto
        have hnone := hlost "__proto__" JsObject.proto_mem_objectPrototype (Or.inr rfl)
        rw [nativeWorking, addTombstones_getElem?] at hnone
        have hlisted : "__proto__" ∈
            manifestOf crypto readFile (previousEntries crypto cache) files :=
          mem_manifestOf.mpr ⟨file, hfile, hproto⟩
        rw [Std.ExtTreeMap.mem_iff_isSome_getElem?] at hlisted
        split at hnone
        next => cases hnone
        next hmissing =>
          rw [hmissing] at hlisted
          cases hlisted
      · intro path entry hentry hlive hscanned hmem
        have hnone := hlost path hmem (Or.inl hscanned)
        have hmissing : (manifestOf crypto readFile (previousEntries crypto cache) files)[path]? =
            none := by
          apply Std.ExtTreeMap.getElem?_eq_none
          rw [mem_manifestOf]
          rintro ⟨file, hfile, hsame⟩
          exact hscanned file hfile hsame
        rw [nativeWorking, addTombstones_getElem?, hmissing, hentry] at hnone
        simp [Option.filter, hlive] at hnone
    · rw [herror] at hok
      cases hok
  · intro hnames
    obtain ⟨hfiles, hbase⟩ := hnames
    rcases hscan with ⟨_, hok⟩ | ⟨⟨file, hfile, hnot⟩, _⟩
    · refine ⟨_, by rw [buildWorkingManifest, hok]; rfl, ?_⟩
      simp only
      rw [foldl_set_files fun file hfile => (hfiles file hfile).1]
      change (base.toList.foldl (addTombstone now)
        ⟨manifestOf crypto readFile (previousEntries crypto cache) files, none⟩).own = _
      rw [foldl_addTombstone, foldl_addTombstone_eq]
      · rfl
      · rintro ⟨path, entry⟩ hentry hlive hmissing
        apply hbase path entry (Std.ExtTreeMap.mem_toList_iff_getElem?_eq_some.mp hentry) hlive
        intro file hfile hsame
        exact hmissing (mem_manifestOf.mpr ⟨file, hfile, hsame⟩)
    · exact absurd (hfiles file hfile).2 hnot

/-- A failed decrypt is a wrong key. -/
def orWrongPassphrase (decoded : Except CryptoError Manifest) : Except JsError Manifest :=
  match decoded with
  | .ok manifest => .ok manifest
  | .error _ => .error .wrongPassphrase

/-- Decoding gives the entries that the native client gets from the same rows. -/
def DecodesOpaquely (crypto : Crypto) (rows : List FileEntry) : Prop :=
  (decodeManifest crypto rows).map JsObject.own =
    orWrongPassphrase (rows.foldlM (Engine.decodeRow crypto) ∅)

/-- The row is decoded to this path. -/
def Names (crypto : Crypto) (row : FileEntry) (path : String) : Prop :=
  row.encPath ≠ "" ∧ crypto.decryptPath row.encPath = .ok path

/-- A row that cannot be decoded stops both clients. -/
def Undecodable (crypto : Crypto) (row : FileEntry) : Prop :=
  row.encPath ≠ "" ∧ ∃ error, crypto.decryptPath row.encPath = .error error

section Rows

variable {crypto : Crypto} {rows : List FileEntry}

theorem row_cases (crypto : Crypto) (row : FileEntry) :
    row.encPath = "" ∨ (∃ path, Names crypto row path) ∨ Undecodable crypto row := by
  by_cases hempty : row.encPath = ""
  · exact Or.inl hempty
  · cases hdecrypt : crypto.decryptPath row.encPath with
    | ok path => exact Or.inr (Or.inl ⟨path, hempty, hdecrypt⟩)
    | error error => exact Or.inr (Or.inr ⟨hempty, error, hdecrypt⟩)

theorem decodeRow_of_names {row : FileEntry} {path : String} (hnames : Names crypto row path)
    (object : JsObject FileEntry) (manifest : Manifest) :
    decodeRow crypto object row = .ok (object.set path row) ∧
      Engine.decodeRow crypto manifest row = .ok (manifest.insert path row) := by
  simp [decodeRow, Engine.decodeRow, hnames.1, hnames.2]

theorem decodeRow_of_empty {row : FileEntry} (hempty : row.encPath = "")
    (object : JsObject FileEntry) (manifest : Manifest) :
    decodeRow crypto object row = .ok object ∧ Engine.decodeRow crypto manifest row =
      .ok manifest := by
  simp [decodeRow, Engine.decodeRow, hempty]

theorem decodeRow_of_undecodable {row : FileEntry} (hrow : Undecodable crypto row)
    (object : JsObject FileEntry) (manifest : Manifest) :
    decodeRow crypto object row = .error .wrongPassphrase ∧
      ∃ error, Engine.decodeRow crypto manifest row = .error error := by
  obtain ⟨hencoded, error, hdecrypt⟩ := hrow
  simp [decodeRow, Engine.decodeRow, hencoded, hdecrypt]

/-- A row that cannot be decoded makes both fail. -/
theorem foldlM_decodeRow_undecodable (hsome : ∃ row ∈ rows, Undecodable crypto row)
    (object : JsObject FileEntry) (manifest : Manifest) :
    rows.foldlM (decodeRow crypto) object = .error .wrongPassphrase ∧
      ∃ error, rows.foldlM (Engine.decodeRow crypto) manifest = .error error := by
  induction rows generalizing object manifest with
  | nil => simp at hsome
  | cons row rest ih =>
      rw [List.foldlM_cons, List.foldlM_cons]
      rcases row_cases crypto row with hempty | ⟨path, hnames⟩ | hbad
      · have hrest : ∃ row ∈ rest, Undecodable crypto row := by
          obtain ⟨found, hfound, hbad⟩ := hsome
          rcases List.mem_cons.mp hfound with rfl | hlater
          · exact absurd hempty hbad.1
          · exact ⟨found, hlater, hbad⟩
        rw [(decodeRow_of_empty hempty object manifest).1,
          (decodeRow_of_empty hempty object manifest).2]
        exact ih hrest object manifest
      · have hrest : ∃ row ∈ rest, Undecodable crypto row := by
          obtain ⟨found, hfound, hbad⟩ := hsome
          rcases List.mem_cons.mp hfound with rfl | hlater
          · obtain ⟨_, error, hdecrypt⟩ := hbad
            rw [hnames.2] at hdecrypt
            cases hdecrypt
          · exact ⟨found, hlater, hbad⟩
        rw [(decodeRow_of_names hnames object manifest).1,
          (decodeRow_of_names hnames object manifest).2]
        exact ih hrest _ _
      · obtain ⟨hthrows, error, herror⟩ := decodeRow_of_undecodable hbad object manifest
        rw [hthrows, herror]
        exact ⟨rfl, error, rfl⟩

/-- When every row can be decoded, the object gets the properties the map gets,
but for `__proto__`. -/
theorem foldlM_decodeRow (hall : ∀ row ∈ rows, ¬ Undecodable crypto row)
    (object : JsObject FileEntry) (hobject : object.own["__proto__"]? = none) (manifest : Manifest)
    (hsame : ∀ path : String, path ≠ "__proto__" → object.own[path]? = manifest[path]?) :
    ∃ decoded native, rows.foldlM (decodeRow crypto) object = .ok decoded ∧
      rows.foldlM (Engine.decodeRow crypto) manifest = .ok native ∧
      decoded.own["__proto__"]? = none ∧
      (∀ path : String, path ≠ "__proto__" → decoded.own[path]? = native[path]?) ∧
      ("__proto__" ∈ native ↔ "__proto__" ∈ manifest ∨ ∃ row ∈ rows,
        Names crypto row "__proto__") := by
  induction rows generalizing object manifest with
  | nil => exact ⟨object, manifest, rfl, rfl, hobject, hsame, by simp⟩
  | cons row rest ih =>
      have hrest : ∀ row ∈ rest, ¬ Undecodable crypto row :=
        fun later hlater => hall later (List.mem_cons_of_mem _ hlater)
      rw [List.foldlM_cons, List.foldlM_cons]
      rcases row_cases crypto row with hempty | ⟨path, hnames⟩ | hbad
      · rw [(decodeRow_of_empty hempty object manifest).1,
          (decodeRow_of_empty hempty object manifest).2]
        obtain ⟨decoded, native, hdecoded, hnative, hproto, hagree, hmem⟩ :=
          ih hrest object hobject manifest hsame
        refine ⟨decoded, native, hdecoded, hnative, hproto, hagree, hmem.trans ?_⟩
        have hnot : ¬ Names crypto row "__proto__" := fun hnames => hnames.1 hempty
        simp [hnot]
      · rw [(decodeRow_of_names hnames object manifest).1,
          (decodeRow_of_names hnames object manifest).2]
        have hnext : ∀ other : String, other ≠ "__proto__" →
            (object.set path row).own[other]? = (manifest.insert path row)[other]? := by
          intro other hother
          by_cases hpath : path = other
          · subst hpath
            simp [JsObject.set_of_ne object hother]
          · rw [JsObject.set_own_of_ne object hpath, Std.ExtTreeMap.getElem?_insert_of_ne _ _ hpath]
            exact hsame other hother
        obtain ⟨decoded, native, hdecoded, hnative, hproto, hagree, hmem⟩ :=
          ih hrest (object.set path row) (JsObject.set_own_proto hobject path row)
            (manifest.insert path row) hnext
        refine ⟨decoded, native, hdecoded, hnative, hproto, hagree, hmem.trans ?_⟩
        have hnamed : Names crypto row "__proto__" ↔ path = "__proto__" := by
          rw [Names, hnames.2]
          simp [hnames.1]
        simp only [Std.ExtTreeMap.mem_insert, Std.LawfulEqCmp.compare_eq_iff_eq, List.mem_cons,
          exists_eq_or_imp, hnamed]
        tauto
      · exact absurd hbad (hall row (by simp))

end Rows

/-- Decoding is the native one exactly when no decoded path is `__proto__`; a
row that cannot be decoded stops both. -/
theorem decodes_opaquely_iff (crypto : Crypto) (rows : List FileEntry) :
    DecodesOpaquely crypto rows ↔
      ((∃ row ∈ rows, Undecodable crypto row) ∨ ∀ row ∈ rows, ¬ Names crypto row "__proto__") := by
  unfold DecodesOpaquely decodeManifest
  by_cases hsome : ∃ row ∈ rows, Undecodable crypto row
  · obtain ⟨hthrows, error, herror⟩ := foldlM_decodeRow_undecodable hsome .empty ∅
    rw [hthrows, herror]
    simp only [hsome, true_or, iff_true]
    rfl
  · have hall : ∀ row ∈ rows, ¬ Undecodable crypto row :=
      fun row hrow hbad => hsome ⟨row, hrow, hbad⟩
    obtain ⟨decoded, native, hdecoded, hnative, hproto, hagree, hmem⟩ :=
      foldlM_decodeRow hall .empty (by simp [JsObject.empty]) ∅ (by simp [JsObject.empty])
    rw [hdecoded, hnative]
    simp only [hsome, false_or]
    have hnone : "__proto__" ∉ native ↔ ∀ row ∈ rows, ¬ Names crypto row "__proto__" := by
      rw [hmem]
      simp
    rw [← hnone]
    constructor
    · intro hown hlisted
      have hsame : decoded.own = native := Except.ok.inj hown
      rw [← hsame, Std.ExtTreeMap.mem_iff_isSome_getElem?, hproto] at hlisted
      cases hlisted
    · intro hmissing
      refine congrArg Except.ok (Std.ExtTreeMap.ext_getElem? fun path => ?_)
      by_cases hpath : path = "__proto__"
      · rw [hpath, hproto, Std.ExtTreeMap.getElem?_eq_none hmissing]
      · exact hagree path hpath

/-- Filtering keeps what the native filter keeps. -/
def FiltersOpaquely (ignore : IgnoreRules) (manifest : Manifest) : Prop :=
  (withoutIgnored ignore manifest).own = keep ignore manifest

theorem withoutIgnored_getElem? (ignore : IgnoreRules) (manifest : Manifest) (path : String) :
    (withoutIgnored ignore manifest).own[path]? =
      if path = "__proto__" then none else (keep ignore manifest)[path]? := by
  let step : JsObject FileEntry → String × FileEntry → JsObject FileEntry :=
    fun kept entry => if ignore.isIgnored entry.1 then kept else kept.set entry.1 entry.2
  by_cases hproto : path = "__proto__"
  · rw [if_pos hproto, hproto]
    -- the setter of this name sets the prototype, never an own property
    have hnone : ∀ (entries : List (String × FileEntry)) (kept : JsObject FileEntry),
        kept.own["__proto__"]? = none → (entries.foldl step kept).own["__proto__"]? = none := by
      intro entries
      induction entries with
      | nil => exact fun kept hkept => hkept
      | cons entry rest ih =>
          intro kept hkept
          apply ih
          simp only [step]
          split
          next => exact hkept
          next => exact JsObject.set_own_proto hkept _ _
    exact hnone manifest.toList .empty (by simp [JsObject.empty])
  · rw [if_neg hproto, keep_getElem?]
    -- an entry met later in the list overwrites with the same value
    have hfold : ∀ (entries : List (String × FileEntry)) (kept : JsObject FileEntry),
        (∀ entry ∈ entries, manifest[entry.1]? = some entry.2) →
        (entries.foldl step kept).own[path]? =
          if path ∈ entries.map Prod.fst ∧ ignore.isIgnored path = false then manifest[path]?
          else kept.own[path]? := by
      intro entries
      induction entries with
      | nil => simp
      | cons entry rest ih =>
          intro kept hentries
          rw [List.foldl_cons, ih _ fun later hlater =>
            hentries later (List.mem_cons_of_mem _ hlater)]
          by_cases hlater : path ∈ rest.map Prod.fst ∧ ignore.isIgnored path = false
          · rw [if_pos hlater, if_pos ⟨List.mem_cons_of_mem _ hlater.1, hlater.2⟩]
          · rw [if_neg hlater]
            by_cases hpath : entry.1 = path
            · have hhead := hentries entry (by simp)
              rw [hpath] at hhead
              by_cases hignored : ignore.isIgnored path = true
              · simp [step, hpath, hignored]
              · simp [step, hpath, hignored, hhead, JsObject.set_of_ne kept hproto]
            · have hsame : (step kept entry).own[path]? = kept.own[path]? := by
                simp only [step]
                split
                next => rfl
                next => exact JsObject.set_own_of_ne kept hpath _
              have hnot :
                  ¬ (path ∈ (entry :: rest).map Prod.fst ∧ ignore.isIgnored path = false) := by
                rintro ⟨hmem, hseen⟩
                rw [List.map_cons, List.mem_cons] at hmem
                rcases hmem with heq | hmem
                · exact hpath heq.symm
                · exact hlater ⟨hmem, hseen⟩
              rw [hsame, if_neg hnot]
    change (manifest.toList.foldl step .empty).own[path]? = _
    rw [hfold manifest.toList .empty fun entry hentry =>
      Std.ExtTreeMap.mem_toList_iff_getElem?_eq_some.mp hentry]
    simp only [Std.ExtTreeMap.map_fst_toList_eq_keys, Std.ExtTreeMap.mem_keys]
    by_cases hignored : ignore.isIgnored path = true
    · simp [hignored, JsObject.empty]
    · by_cases hmem : path ∈ manifest
      · simp [hignored, hmem]
      · simp [hignored, hmem, JsObject.empty]

theorem filters_opaquely_iff (ignore : IgnoreRules) (manifest : Manifest) :
    FiltersOpaquely ignore manifest ↔
      ("__proto__" ∈ manifest → ignore.isIgnored "__proto__" = true) := by
  constructor
  · intro hfilters hmem
    by_contra hseen
    have hproto := withoutIgnored_getElem? ignore manifest "__proto__"
    rw [hfilters, if_pos rfl, keep_getElem?, if_neg hseen] at hproto
    rw [Std.ExtTreeMap.mem_iff_isSome_getElem?, hproto] at hmem
    cases hmem
  · intro hignored
    apply Std.ExtTreeMap.ext_getElem?
    intro path
    rw [withoutIgnored_getElem?]
    split
    next hproto =>
      subst hproto
      rw [keep_getElem?]
      split
      next => rfl
      next hseen =>
        have hmissing : "__proto__" ∉ manifest := fun hmem => hseen (hignored hmem)
        rw [Std.ExtTreeMap.getElem?_eq_none hmissing]
    next => rfl

/-- The browser treats names as the native client does exactly when no scanned
file, no decoded row and no kept path is named `__proto__`, and other names of
members of `Object.prototype` are scanned only where the cache has an entry of
its own, and are not among the live entries of the base whose file is gone. -/
theorem names_are_opaque_iff (crypto : Crypto) (ignore : IgnoreRules) (readFile : String → Bytes)
    (now : Nat) (files : List ScannedFile) (cache : Option HashCache) (base manifest : Manifest)
    (rows : List FileEntry) :
    (BuildsOpaquely crypto readFile now files cache base ∧ DecodesOpaquely crypto rows ∧
      FiltersOpaquely ignore manifest) ↔
      ((∀ file ∈ files, file.path ≠ "__proto__" ∧ ReadsOwn (previousEntries crypto cache) file) ∧
        ∀ (path : String) (entry : FileEntry), base[path]? = some entry → entry.deleted = false →
          (∀ file ∈ files, file.path ≠ path) → path ∉ objectPrototype) ∧
      ((∃ row ∈ rows, Undecodable crypto row) ∨ ∀ row ∈ rows, ¬ Names crypto row "__proto__") ∧
      ("__proto__" ∈ manifest → ignore.isIgnored "__proto__" = true) := by
  rw [builds_opaquely_iff, decodes_opaquely_iff, filters_opaquely_iff]

/-- A file named `constructor` stops the scan. -/
theorem constructor_file_fails (crypto : Crypto) :
    buildWorkingManifest crypto (fun _ => []) 0 [⟨"constructor", 0, 0⟩] none ∅ =
      .error .typeError := by
  rfl

theorem constructor_file_is_not_opaque :
    ¬ (BuildsOpaquely .sample (fun _ => []) 0 [⟨"constructor", 0, 0⟩] none ∅ ∧
      DecodesOpaquely .sample [] ∧ FiltersOpaquely .defaults ∅) := by
  rintro ⟨⟨built, hok, _⟩, _⟩
  rw [constructor_file_fails] at hok
  cases hok

end ObSink.Web.Objects
