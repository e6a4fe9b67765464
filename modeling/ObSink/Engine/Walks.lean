import Mathlib.Logic.Equiv.List
import ObSink.Engine.HashCache

/-! # The memo over many walks

The life of `.obsink/hash-cache.json`: `HashCache::load` before a walk,
`retain_paths` at its end and `save` after it (`core/src/hash_cache.rs`,
`load_local_state` of `core/src/sync_engine.rs`). Between two walks files change,
the vault may get another key or other rules, and the cache file may be replaced
by anything. Files can be read, and do not change during a walk.

The memo goes by the key a file is listed under, where a `\` of its name became a
`/`. Two files may share a key, and the memo then takes one for the other.
-/

namespace ObSink.Engine

/-- `serde_json` on caches: what was written reads back. -/
structure CacheSerde where
  toVec : HashCache → Bytes
  fromSlice : Bytes → Option HashCache
  fromSlice_toVec : ∀ cache, fromSlice (toVec cache) = some cache

namespace CacheSerde

/-- A text as numbers. -/
def charCodes (text : String) : List Nat := text.toList.map Char.toNat

def ofCharCodes (codes : List Nat) : String := String.ofList (codes.map Char.ofNat)

theorem ofCharCodes_charCodes (text : String) : ofCharCodes (charCodes text) = text := by
  have hchars : (charCodes text).map Char.ofNat = text.toList := by
    rw [charCodes, List.map_map]
    exact (List.map_congr_left fun char _ => Char.ofNat_toNat char).trans (List.map_id _)
  rw [ofCharCodes, hchars, String.ofList_toList]

/-- An entry of a cache with its path. -/
def entryCodes (item : String × CacheEntry) : List Nat × (Nat × Nat × Nat) × List Nat :=
  (charCodes item.1, (item.2.stat.mtimeSecs, item.2.stat.mtimeNanos, item.2.stat.size),
    charCodes item.2.hash)

def ofEntryCodes (codes : List Nat × (Nat × Nat × Nat) × List Nat) : String × CacheEntry :=
  (ofCharCodes codes.1, ⟨⟨codes.2.1.1, codes.2.1.2.1, codes.2.1.2.2⟩, ofCharCodes codes.2.2⟩)

theorem ofEntryCodes_entryCodes (item : String × CacheEntry) :
    ofEntryCodes (entryCodes item) = item := by
  simp [entryCodes, ofEntryCodes, ofCharCodes_charCodes]

/-- A cache as a number, written in unary. -/
def sample : CacheSerde where
  toVec cache := List.replicate
    (Encodable.encode (charCodes cache.keyId, cache.entries.toList.map entryCodes)) 0
  fromSlice bytes :=
    (Encodable.decode (α := List Nat × List (List Nat × (Nat × Nat × Nat) × List Nat))
      bytes.length).map fun codes => ⟨ofCharCodes codes.1, .ofList (codes.2.map ofEntryCodes)⟩
  fromSlice_toVec := by
    intro cache
    have hentries :
        (cache.entries.toList.map entryCodes).map ofEntryCodes = cache.entries.toList := by
      rw [List.map_map]
      exact (List.map_congr_left fun item _ => ofEntryCodes_entryCodes item).trans (List.map_id _)
    rw [List.length_replicate, Encodable.encodek, Option.map_some, hentries,
      ofCharCodes_charCodes, Std.ExtTreeMap.ofList_toList]

end CacheSerde

/-- The cache on disk, or an empty one when it is missing, unreadable, corrupt or
written under another key. -/
def HashCache.loadFile (serde : CacheSerde) (crypto : Crypto) (file : Option Bytes) : HashCache :=
  HashCache.load crypto (file.bind serde.fromSlice)

/-- Drop entries for paths the walk no longer saw. -/
def HashCache.retainPaths (cache : HashCache) (seen : Manifest) : HashCache :=
  { cache with entries := cache.entries.filter fun path _ => seen.contains path }

/-- A walk with the memo it starts from, and the memo it leaves. -/
def walkWithCache (crypto : Crypto) (ignore : IgnoreRules) (nanos : String → Nat)
    (cache : HashCache) (folder : Folder) : Manifest × HashCache :=
  let (manifest, memo) := folder.toList.foldl (walkStep crypto ignore nanos) (∅, cache)
  (manifest, memo.retainPaths manifest)

theorem walkWithCache_manifest (crypto : Crypto) (ignore : IgnoreRules) (nanos : String → Nat)
    (cache : HashCache) (folder : Folder) :
    (walkWithCache crypto ignore nanos cache folder).1 =
      buildManifestWithCache crypto ignore nanos cache folder := rfl

theorem walkStep_keyId (crypto : Crypto) (ignore : IgnoreRules) (nanos : String → Nat)
    (walked : Manifest × HashCache) (item : String × StoredFile) :
    (walkStep crypto ignore nanos walked item).2.keyId = walked.2.keyId := by
  unfold walkStep
  simp only
  split
  next => rfl
  next =>
    split
    next => rfl
    next => rfl

theorem walkWithCache_keyId (crypto : Crypto) (ignore : IgnoreRules) (nanos : String → Nat)
    (cache : HashCache) (folder : Folder) :
    (walkWithCache crypto ignore nanos cache folder).2.keyId = cache.keyId := by
  have hfold : ∀ (items : List (String × StoredFile)) (walked : Manifest × HashCache),
      (items.foldl (walkStep crypto ignore nanos) walked).2.keyId = walked.2.keyId := by
    intro items
    induction items with
    | nil =>
        intro walked
        rfl
    | cons item rest ih =>
        intro walked
        exact (ih _).trans (walkStep_keyId _ _ _ _ _)
  exact hfold folder.toList (∅, cache)

/-- What a walk meets: the vault's key and rules at the time, the folder with the
part of each modification time below a second, and whether the save succeeds. -/
structure Visit where
  crypto : Crypto
  ignore : IgnoreRules
  folder : Folder
  nanos : String → Nat
  saves : Bool

/-- What a walk with an empty cache returns. -/
def Visit.fresh (visit : Visit) : Manifest :=
  buildManifestWithCache visit.crypto visit.ignore visit.nanos (.empty visit.crypto) visit.folder

/-- The cache file, every file a save has written so far, and the walks with
their manifests. -/
structure WalkRecord where
  file : Option Bytes
  written : List Bytes
  walks : List (Visit × Manifest)

/-- Load, walk, save. -/
def WalkRecord.walk (serde : CacheSerde) (past : WalkRecord) (visit : Visit) : WalkRecord :=
  let (manifest, memo) := walkWithCache visit.crypto visit.ignore visit.nanos
    (.loadFile serde visit.crypto past.file) visit.folder
  { file := if visit.saves then some (serde.toVec memo) else past.file
    written := if visit.saves then past.written ++ [serde.toVec memo] else past.written
    walks := past.walks ++ [(visit, manifest)] }

/-- The file is missing, corrupt, written under another key than this one, or
one that an earlier walk saved. -/
def WalkRecord.Harmless (serde : CacheSerde) (past : WalkRecord) (crypto : Crypto) : Prop :=
  ∀ bytes ∈ past.file, ∀ cache, serde.fromSlice bytes = some cache →
    cache.keyId = hashCacheKeyId crypto → bytes ∈ past.written

/-- Any sequence of walks, the cache file being replaced at will in between. -/
inductive Happens (serde : CacheSerde) : WalkRecord → Prop
  | start (file : Option Bytes) : Happens serde ⟨file, [], []⟩
  | replaced {past : WalkRecord} (hpast : Happens serde past) (file : Option Bytes) :
      Happens serde { past with file }
  | walked {past : WalkRecord} (hpast : Happens serde past) {visit : Visit}
      (hfile : past.Harmless serde visit.crypto) : Happens serde (past.walk serde visit)

/-- Whenever a path has the same modification time and size, it has the same
content. -/
def StatTells (visits : List Visit) : Prop :=
  ∀ first ∈ visits, ∀ second ∈ visits,
    ∀ left ∈ first.folder.toList, ∀ right ∈ second.folder.toList,
    left.1 = right.1 →
    statOf (first.nanos left.1) left.2 = statOf (second.nanos right.1) right.2 →
    left.2.content = right.2.content

/-- Files of two names that are listed under one key do not have the same
modification time and size but different contents. -/
def AliasesTell (visits : List Visit) : Prop :=
  ∀ first ∈ visits, ∀ second ∈ visits,
    ∀ left ∈ first.folder.toList, ∀ right ∈ second.folder.toList,
    left.1 ≠ right.1 → normalizePath left.1 = normalizePath right.1 →
    statOf (first.nanos left.1) left.2 = statOf (second.nanos right.1) right.2 →
    left.2.content = right.2.content

/-- Keys of one fingerprint are one key. -/
def FingerprintTells (visits : List Visit) : Prop :=
  ∀ first ∈ visits, ∀ second ∈ visits,
    hashCacheKeyId first.crypto = hashCacheKeyId second.crypto →
    first.crypto.contentHmac = second.crypto.contentHmac

section Anti

variable {visits more : List Visit}

theorem StatTells.anti (htells : StatTells more) (hsub : visits ⊆ more) : StatTells visits := by
  intro first hfirst second hsecond
  exact htells first (hsub hfirst) second (hsub hsecond)

theorem AliasesTell.anti (htells : AliasesTell more) (hsub : visits ⊆ more) :
    AliasesTell visits := by
  intro first hfirst second hsecond
  exact htells first (hsub hfirst) second (hsub hsecond)

theorem FingerprintTells.anti (htells : FingerprintTells more) (hsub : visits ⊆ more) :
    FingerprintTells visits := by
  intro first hfirst second hsecond
  exact htells first (hsub hfirst) second (hsub hsecond)

end Anti

/-- Whatever the memo says was found on one of the walks, under the memo's key. -/
def HashCache.Witnessed (visits : List Visit) (cache : HashCache) : Prop :=
  ∀ path stat hash, cache.lookup path stat = some hash →
    ∃ visit ∈ visits, ∃ item ∈ visit.folder.toList,
      normalizePath item.1 = path ∧ statOf (visit.nanos item.1) item.2 = stat ∧
      hash = visit.crypto.contentHmac item.2.content ∧ cache.keyId = hashCacheKeyId visit.crypto

namespace HashCache

variable {visits : List Visit} {cache : HashCache}

theorem Witnessed.mono (hwitnessed : cache.Witnessed visits) {more : List Visit}
    (hsub : visits ⊆ more) : cache.Witnessed more := by
  intro path stat hash hlookup
  obtain ⟨visit, hvisit, hrest⟩ := hwitnessed path stat hash hlookup
  exact ⟨visit, hsub hvisit, hrest⟩

theorem witnessed_empty (crypto : Crypto) (visits : List Visit) :
    (empty crypto).Witnessed visits := by
  intro path stat hash hlookup
  simp at hlookup

theorem lookup_insert (path : String) (stat : Stat) (hash : String) {other : String} {found : Stat}
    {result : String} (hlookup : (cache.insert path stat hash).lookup other found = some result) :
    (other = path ∧ found = stat ∧ result = hash) ∨ cache.lookup other found = some result := by
  rw [lookup_eq_some] at hlookup ⊢
  by_cases hpath : path = other
  · subst hpath
    have hentry : some (CacheEntry.mk stat hash) = some ⟨found, result⟩ := by
      simpa [HashCache.insert] using hlookup
    cases hentry
    exact Or.inl ⟨rfl, rfl, rfl⟩
  · right
    rw [← hlookup]
    exact (Std.ExtTreeMap.getElem?_insert_of_ne _ _ hpath).symm

theorem lookup_retainPaths {seen : Manifest} {path : String} {stat : Stat} {hash : String}
    (hlookup : (cache.retainPaths seen).lookup path stat = some hash) :
    cache.lookup path stat = some hash := by
  rw [lookup_eq_some] at hlookup ⊢
  rw [retainPaths, Std.ExtTreeMap.getElem?_filter'] at hlookup
  exact (Option.filter_eq_some_iff.mp hlookup).1

/-- A file of the walk keeps the memo witnessed. -/
theorem Witnessed.walkStep {visit : Visit} (hwitnessed : cache.Witnessed visits)
    (hvisit : visit ∈ visits) (hkey : cache.keyId = hashCacheKeyId visit.crypto)
    {item : String × StoredFile} (hitem : item ∈ visit.folder.toList) (manifest : Manifest) :
    (Engine.walkStep visit.crypto visit.ignore visit.nanos
      (manifest, cache) item).2.Witnessed visits := by
  unfold Engine.walkStep
  simp only
  split
  next => exact hwitnessed
  next =>
    split
    next => exact hwitnessed
    next =>
      intro path stat hash hlookup
      rcases lookup_insert _ _ _ hlookup with ⟨rfl, rfl, rfl⟩ | hold
      · exact ⟨visit, hvisit, item, hitem, rfl, rfl, rfl, hkey⟩
      · exact hwitnessed path stat hash hold

theorem Witnessed.foldl {visit : Visit} (hvisit : visit ∈ visits)
    {items : List (String × StoredFile)} (hitems : ∀ item ∈ items, item ∈ visit.folder.toList)
    {cache : HashCache}
    (hwitnessed : cache.Witnessed visits) (hkey : cache.keyId = hashCacheKeyId visit.crypto)
    (manifest : Manifest) :
    (items.foldl (Engine.walkStep visit.crypto visit.ignore visit.nanos)
      (manifest, cache)).2.Witnessed visits := by
  induction items generalizing manifest cache with
  | nil => exact hwitnessed
  | cons item rest ih =>
      have hnext := hwitnessed.walkStep hvisit hkey (hitems item (by simp)) manifest
      have hnextKey := (walkStep_keyId visit.crypto visit.ignore visit.nanos (manifest, cache)
        item).trans hkey
      exact ih (fun later hlater => hitems later (List.mem_cons_of_mem _ hlater)) hnext hnextKey _

/-- What a walk leaves is witnessed when what it started from was. -/
theorem Witnessed.walk {visit : Visit} (hwitnessed : cache.Witnessed visits)
    (hvisit : visit ∈ visits) (hkey : cache.keyId = hashCacheKeyId visit.crypto) :
    (walkWithCache visit.crypto visit.ignore visit.nanos cache visit.folder).2.Witnessed
      visits := by
  intro path stat hash hlookup
  have hmemo := hwitnessed.foldl hvisit (fun item hitem => hitem) hkey ∅ path stat hash
    (lookup_retainPaths hlookup)
  exact hmemo

/-- A witnessed memo says nothing wrong of a folder that is one of the witnesses. -/
theorem Witnessed.trueOf {visit : Visit} (hwitnessed : cache.Witnessed visits)
    (hstat : StatTells visits) (haliases : AliasesTell visits)
    (hfingerprint : FingerprintTells visits) (hvisit : visit ∈ visits)
    (hkey : cache.keyId = hashCacheKeyId visit.crypto) :
    ∀ item ∈ visit.folder.toList, cache.TrueOf visit.crypto visit.nanos item := by
  intro item hitem hash hlookup
  obtain ⟨witness, hwitness, found, hfound, hpath, hsame, rfl, hwitnessKey⟩ :=
    hwitnessed _ _ _ hlookup
  have hcontent : found.2.content = item.2.content := by
    by_cases hname : found.1 = item.1
    · exact hstat witness hwitness visit hvisit found hfound item hitem hname hsame
    · exact haliases witness hwitness visit hvisit found hfound item hitem hname hpath hsame
  have hmac := hfingerprint witness hwitness visit hvisit (hwitnessKey.symm.trans hkey)
  rw [hcontent, hmac]

/-- What is loaded belongs to the key. -/
theorem load_keyId (crypto : Crypto) (onDisk : Option HashCache) :
    (load crypto onDisk).keyId = hashCacheKeyId crypto := by
  unfold load
  cases hfound : onDisk.filter fun cache => cache.keyId = hashCacheKeyId crypto with
  | none => rfl
  | some cache =>
      rw [Option.filter_eq_some_iff] at hfound
      simpa using hfound.2

end HashCache

/-- Every file that was saved reads back as a witnessed memo. -/
def WalkRecord.Inv (serde : CacheSerde) (past : WalkRecord) : Prop :=
  ∀ bytes ∈ past.written, ∃ cache, serde.fromSlice bytes = some cache ∧
    cache.Witnessed (past.walks.map Prod.fst)

theorem WalkRecord.walks_walk (past : WalkRecord) (serde : CacheSerde) (visit : Visit) :
    (past.walk serde visit).walks = past.walks ++ [(visit, (walkWithCache visit.crypto visit.ignore
      visit.nanos (.loadFile serde visit.crypto past.file) visit.folder).1)] := rfl

theorem WalkRecord.visits_walk (past : WalkRecord) (serde : CacheSerde) (visit : Visit) :
    (past.walk serde visit).walks.map Prod.fst = past.walks.map Prod.fst ++ [visit] := by
  simp [WalkRecord.walk]

theorem WalkRecord.Inv.start (serde : CacheSerde) (file : Option Bytes) :
    (WalkRecord.mk file [] []).Inv serde := by
  intro bytes hbytes
  cases hbytes

/-- A harmless file is loaded as a witnessed memo. -/
theorem WalkRecord.Inv.loaded {serde : CacheSerde} {past : WalkRecord} (hinv : past.Inv serde)
    {crypto : Crypto} (hfile : past.Harmless serde crypto) :
    (HashCache.loadFile serde crypto past.file).Witnessed (past.walks.map Prod.fst) := by
  unfold HashCache.loadFile HashCache.load
  cases hfound : (past.file.bind serde.fromSlice).filter
      fun cache => cache.keyId = hashCacheKeyId crypto with
  | none => exact HashCache.witnessed_empty crypto _
  | some cache =>
      rw [Option.filter_eq_some_iff, Option.bind_eq_some_iff, decide_eq_true_eq] at hfound
      obtain ⟨⟨bytes, hbytes, hparsed⟩, hkey⟩ := hfound
      obtain ⟨saved, hsaved, hwitnessed⟩ := hinv bytes (hfile bytes hbytes cache hparsed hkey)
      rw [hparsed] at hsaved
      obtain rfl := Option.some.inj hsaved
      exact hwitnessed

theorem WalkRecord.Inv.walk {serde : CacheSerde} {past : WalkRecord} (hinv : past.Inv serde)
    {visit : Visit} (hfile : past.Harmless serde visit.crypto) :
    (past.walk serde visit).Inv serde := by
  have hvisits := past.visits_walk serde visit
  have hmore : past.walks.map Prod.fst ⊆ (past.walk serde visit).walks.map Prod.fst := by
    rw [hvisits]
    exact List.subset_append_left _ _
  have hnew : ((walkWithCache visit.crypto visit.ignore visit.nanos
      (.loadFile serde visit.crypto past.file) visit.folder).2).Witnessed
        ((past.walk serde visit).walks.map Prod.fst) := by
    apply ((hinv.loaded hfile).mono hmore).walk
    · rw [hvisits]
      simp
    · exact HashCache.load_keyId _ _
  intro bytes hbytes
  have hcases : bytes ∈ past.written ∨
      bytes = serde.toVec (walkWithCache visit.crypto visit.ignore visit.nanos
        (.loadFile serde visit.crypto past.file) visit.folder).2 := by
    simp only [WalkRecord.walk] at hbytes
    split at hbytes
    next => simpa using hbytes
    next => exact Or.inl hbytes
  rcases hcases with hold | rfl
  · obtain ⟨cache, hparsed, hwitnessed⟩ := hinv bytes hold
    exact ⟨cache, hparsed, hwitnessed.mono hmore⟩
  · exact ⟨_, serde.fromSlice_toVec _, hnew⟩

theorem Happens.inv {serde : CacheSerde} {past : WalkRecord} (hpast : Happens serde past) :
    past.Inv serde := by
  induction hpast with
  | start file => exact WalkRecord.Inv.start serde file
  | replaced _ file ih => exact ih
  | walked _ hfile ih => exact ih.walk hfile

/-- What a walk saved, the next one under the key loads. -/
theorem HashCache.loadFile_toVec (serde : CacheSerde) {crypto : Crypto} {cache : HashCache}
    (hkey : cache.keyId = hashCacheKeyId crypto) :
    loadFile serde crypto (some (serde.toVec cache)) = cache := by
  simp [loadFile, load, serde.fromSlice_toVec, Option.filter, hkey]

/-- A vault that is walked, edited and walked again. -/
theorem happens_twice (serde : CacheSerde) (first second : Visit) :
    Happens serde (((⟨none, [], []⟩ : WalkRecord).walk serde first).walk serde second) := by
  apply Happens.walked
  · apply Happens.walked (Happens.start none)
    intro bytes hbytes
    cases hbytes
  · intro bytes hbytes _ _ _
    cases hsaves : first.saves with
    | true => simpa [WalkRecord.walk, hsaves, eq_comm] using hbytes
    | false => simp [WalkRecord.walk, hsaves] at hbytes

/-- What the second of two walks returns. -/
def rewalk (serde : CacheSerde) (first second : Visit) : Manifest :=
  (walkWithCache second.crypto second.ignore second.nanos
    (.loadFile serde second.crypto ((⟨none, [], []⟩ : WalkRecord).walk serde first).file)
    second.folder).1

section Twice

variable (serde : CacheSerde) (first second : Visit)

theorem visits_twice :
    (((⟨none, [], []⟩ : WalkRecord).walk serde first).walk serde second).walks.map Prod.fst =
      [first, second] := by
  simp [WalkRecord.walk]

theorem rewalk_mem :
    (second, rewalk serde first second) ∈
      (((⟨none, [], []⟩ : WalkRecord).walk serde first).walk serde second).walks :=
  List.mem_append_right _ (List.mem_singleton_self _)

theorem rewalk_of_saved (hsaves : first.saves = true) (hsame : second.crypto = first.crypto) :
    rewalk serde first second = (walkWithCache second.crypto second.ignore second.nanos
      (walkWithCache first.crypto first.ignore first.nanos (.empty first.crypto) first.folder).2
      second.folder).1 := by
  have hfile : ((⟨none, [], []⟩ : WalkRecord).walk serde first).file = some
      (serde.toVec (walkWithCache first.crypto first.ignore first.nanos (.empty first.crypto)
        first.folder).2) := by
    simp only [WalkRecord.walk, hsaves, ↓reduceIte]
    rfl
  rw [rewalk, hfile, HashCache.loadFile_toVec]
  rw [walkWithCache_keyId, hsame]
  rfl

end Twice

/-- A folder with one file, last changed at the epoch. -/
def oneFileVisit (name : String) (content : Bytes) : Visit where
  crypto := .sample
  ignore := .defaults
  folder := (∅ : Folder).insert name ⟨content, 0⟩
  nanos := fun _ => 0
  saves := true

/-- Over any sequence of walks, with any edits, keys, rules and cache files in
between, each walk returns what it would with an empty cache. -/
theorem memo_never_changes_manifest {serde : CacheSerde} {past : WalkRecord}
    (hpast : Happens serde past) (hstat : StatTells (past.walks.map Prod.fst))
    (haliases : AliasesTell (past.walks.map Prod.fst))
    (hfingerprint : FingerprintTells (past.walks.map Prod.fst)) :
    ∀ visit manifest, (visit, manifest) ∈ past.walks → manifest = visit.fresh := by
  induction hpast with
  | start file =>
      intro visit manifest hwalk
      cases hwalk
  | replaced _ file ih => exact ih hstat haliases hfingerprint
  | @walked past hpast visit hfile ih =>
      have hvisits := past.visits_walk serde visit
      have hmore : past.walks.map Prod.fst ⊆ (past.walk serde visit).walks.map Prod.fst := by
        rw [hvisits]
        exact List.subset_append_left _ _
      intro found manifest hwalk
      rw [WalkRecord.walks_walk, List.mem_append] at hwalk
      rcases hwalk with hearlier | hlast
      · apply ih (hstat.anti hmore) (haliases.anti hmore) (hfingerprint.anti hmore) found manifest
        exact hearlier
      · obtain ⟨rfl, rfl⟩ := Prod.mk.inj (List.mem_singleton.mp hlast)
        rw [walkWithCache_manifest]
        apply buildManifestWithCache_of_true
        apply ((hpast.inv.loaded hfile).mono hmore).trueOf hstat haliases hfingerprint
        · rw [hvisits]
          simp
        · exact HashCache.load_keyId _ _

theorem fingerprintTells_oneFileVisit (first second : String × Bytes) :
    FingerprintTells [oneFileVisit first.1 first.2, oneFileVisit second.1 second.2] := by
  simp [FingerprintTells, oneFileVisit]

/-- A file of two bytes in place of one of a byte is hashed. -/
theorem longer_file_is_hashed_again :
    rewalk .sample (oneFileVisit "a/b" [1]) (oneFileVisit "a/b" [1, 2]) =
      (oneFileVisit "a/b" [1, 2]).fresh := by
  apply memo_never_changes_manifest
    (happens_twice .sample (oneFileVisit "a/b" [1]) (oneFileVisit "a/b" [1, 2]))
  · rw [visits_twice]
    unfold StatTells
    decide
  · rw [visits_twice]
    unfold AliasesTell
    decide
  · rw [visits_twice]
    exact fingerprintTells_oneFileVisit ("a/b", [1]) ("a/b", [1, 2])
  · exact rewalk_mem _ _ _

/-- `a/b` goes, and a file named `a\b` with other content but the same
modification time and size comes: it is listed with the hash of the file that went. -/
theorem backslash_name_is_taken_for_other_file :
    ¬ ∀ (serde : CacheSerde) (past : WalkRecord), Happens serde past →
      StatTells (past.walks.map Prod.fst) → FingerprintTells (past.walks.map Prod.fst) →
      ∀ visit manifest, (visit, manifest) ∈ past.walks → manifest = visit.fresh := by
  intro hall
  have hsame : rewalk .sample (oneFileVisit "a/b" [1]) (oneFileVisit "a\\b" [2]) =
      (oneFileVisit "a\\b" [2]).fresh := by
    apply hall _ _ (happens_twice .sample (oneFileVisit "a/b" [1]) (oneFileVisit "a\\b" [2]))
    · rw [visits_twice]
      unfold StatTells
      decide
    · rw [visits_twice]
      exact fingerprintTells_oneFileVisit ("a/b", [1]) ("a\\b", [2])
    · exact rewalk_mem _ _ _
  rw [rewalk_of_saved _ (oneFileVisit "a/b" [1]) (oneFileVisit "a\\b" [2]) rfl rfl] at hsame
  have hhash := congrArg (fun manifest : Manifest => manifest["a/b"]?.map FileEntry.hash) hsame
  exact absurd hhash (by decide +kernel)

end ObSink.Engine
