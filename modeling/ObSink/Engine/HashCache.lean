import ObSink.Engine.Cycle

/-! # The memo of content hashes

`core/src/hash_cache.rs`, and the walk of `core/src/hasher.rs` that looks there
before it reads a file. The memo is bound to the key it was written under; what
it says is looked up by the modification time and the size of a file. What
`Cycle` calls the walk is the one that reads every file.
-/

namespace ObSink.Engine

open Std.ExtTreeMap (getElem?_insert_of_ne)

structure Stat where
  mtimeSecs : Nat
  mtimeNanos : Nat
  size : Nat
  deriving DecidableEq, Repr

structure CacheEntry where
  stat : Stat
  hash : String
  deriving DecidableEq, Repr

structure HashCache where
  keyId : String
  entries : Std.ExtTreeMap String CacheEntry
  deriving DecidableEq

/-- `obsink:hash-cache:v1` -/
def hashCacheKeyLabel : Bytes := "obsink:hash-cache:v1".toUTF8.toList

/-- The fingerprint of a key that its memo carries. -/
def hashCacheKeyId (crypto : Crypto) : String := crypto.contentHmac hashCacheKeyLabel

namespace HashCache

def empty (crypto : Crypto) : HashCache := ⟨hashCacheKeyId crypto, ∅⟩

/-- The memo on disk; a missing one, or one written under another key, is
empty. -/
def load (crypto : Crypto) (onDisk : Option HashCache) : HashCache :=
  (onDisk.filter fun cache => cache.keyId = hashCacheKeyId crypto).getD (empty crypto)

def lookup (cache : HashCache) (path : String) (stat : Stat) : Option String :=
  (cache.entries[path]?.filter fun entry => entry.stat = stat).map CacheEntry.hash

def insert (cache : HashCache) (path : String) (stat : Stat) (hash : String) : HashCache :=
  { cache with entries := cache.entries.insert path ⟨stat, hash⟩ }

end HashCache

/-- What the walker is told about a file: `nanos` is the part of its
modification time below a second. -/
def statOf (nanos : Nat) (file : StoredFile) : Stat := ⟨file.modified, nanos, file.content.length⟩

/-- One file of the walk: its hash from the memo, or read and noted there. -/
def walkStep (crypto : Crypto) (ignore : IgnoreRules) (nanos : String → Nat)
    (walked : Manifest × HashCache) (item : String × StoredFile) : Manifest × HashCache :=
  let key := normalizePath item.1
  if ignore.isIgnored key then walked
  else
    let stat := statOf (nanos item.1) item.2
    match walked.2.lookup key stat with
    | some hash => (walked.1.insert key { walkEntry crypto item.2 with hash }, walked.2)
    | none =>
        let hash := crypto.contentHmac item.2.content
        (walked.1.insert key (walkEntry crypto item.2), walked.2.insert key stat hash)

/-- The files on disk, with the hashes the memo has for them. -/
def buildManifestWithCache (crypto : Crypto) (ignore : IgnoreRules) (nanos : String → Nat)
    (cache : HashCache) (folder : Folder) : Manifest :=
  (folder.toList.foldl (walkStep crypto ignore nanos) (∅, cache)).1

/-- What the memo says of a file is the hash of its content. -/
def HashCache.TrueOf (crypto : Crypto) (nanos : String → Nat) (cache : HashCache)
    (item : String × StoredFile) : Prop :=
  ∀ hash, cache.lookup (normalizePath item.1) (statOf (nanos item.1) item.2) = some hash →
    hash = crypto.contentHmac item.2.content

namespace HashCache

variable {crypto : Crypto} {ignore : IgnoreRules} {nanos : String → Nat} {cache : HashCache}

theorem lookup_eq_some {path : String} {stat : Stat} {hash : String} :
    cache.lookup path stat = some hash ↔ cache.entries[path]? = some ⟨stat, hash⟩ := by
  unfold lookup
  cases cache.entries[path]? with
  | none => simp
  | some entry =>
      obtain ⟨noted, found⟩ := entry
      by_cases hstat : noted = stat
      · simp [Option.filter, hstat]
      · simp [Option.filter, hstat]

@[simp] theorem lookup_empty (path : String) (stat : Stat) :
    (empty crypto).lookup path stat = none := by
  simp [lookup, empty]

theorem load_none : load crypto none = empty crypto := rfl

/-- Two memos on the way of a walk: the second started out empty, and has by now
what the first has, up to entries of the leftover memo not looked at yet. -/
def Trails (leftover first second : HashCache) : Prop :=
  ∀ path : String, first.entries[path]? = second.entries[path]? ∨
    second.entries[path]? = none ∧ first.entries[path]? = leftover.entries[path]?

theorem Trails.insert {leftover first second : HashCache} (htrails : Trails leftover first second)
    (path : String) (stat : Stat) (hash : String) :
    Trails leftover (first.insert path stat hash) (second.insert path stat hash) := by
  intro other
  by_cases hpath : path = other
  · subst hpath
    left
    simp [HashCache.insert]
  · simp only [HashCache.insert, getElem?_insert_of_ne _ _ hpath]
    exact htrails other

/-- One file is listed alike. -/
theorem Trails.walkStep {leftover first second : HashCache}
    (htrails : Trails leftover first second) {item : String × StoredFile}
    (htrue : leftover.TrueOf crypto nanos item) (manifest : Manifest) :
    (walkStep crypto ignore nanos (manifest, first) item).1 =
        (walkStep crypto ignore nanos (manifest, second) item).1 ∧
      Trails leftover (walkStep crypto ignore nanos (manifest, first) item).2
        (walkStep crypto ignore nanos (manifest, second) item).2 := by
  by_cases hignored : ignore.isIgnored (normalizePath item.1) = true
  · simp only [Engine.walkStep, hignored, ↓reduceIte]
    exact ⟨trivial, htrails⟩
  simp only [Engine.walkStep, hignored, Bool.false_eq_true, ↓reduceIte]
  rcases htrails (normalizePath item.1) with hsame | ⟨hnone, hleft⟩
  · have hlookup : first.lookup (normalizePath item.1) (statOf (nanos item.1) item.2) =
        second.lookup (normalizePath item.1) (statOf (nanos item.1) item.2) := by
      simp only [lookup, hsame]
    rw [hlookup]
    split
    next => exact ⟨rfl, htrails⟩
    next => exact ⟨rfl, htrails.insert _ _ _⟩
  · have hmiss : second.lookup (normalizePath item.1) (statOf (nanos item.1) item.2) = none := by
      simp only [lookup, hnone, Option.filter_none, Option.map_none]
    have hlookup : first.lookup (normalizePath item.1) (statOf (nanos item.1) item.2) =
        leftover.lookup (normalizePath item.1) (statOf (nanos item.1) item.2) := by
      simp only [lookup, hleft]
    rw [hmiss, hlookup]
    cases hfound : leftover.lookup (normalizePath item.1) (statOf (nanos item.1) item.2) with
    | none => exact ⟨rfl, htrails.insert _ _ _⟩
    | some hash =>
        obtain rfl := htrue hash hfound
        refine ⟨rfl, fun other => ?_⟩
        -- the entry that was found is the one the other walk has just noted
        by_cases hpath : normalizePath item.1 = other
        · subst hpath
          left
          rw [hleft, lookup_eq_some.mp hfound]
          simp [HashCache.insert]
        · simp only [HashCache.insert, getElem?_insert_of_ne _ _ hpath]
          exact htrails other

theorem Trails.foldl {leftover first second : HashCache} {items : List (String × StoredFile)}
    (htrails : Trails leftover first second)
    (htrue : ∀ item ∈ items, leftover.TrueOf crypto nanos item) (manifest : Manifest) :
    (items.foldl (Engine.walkStep crypto ignore nanos) (manifest, first)).1 =
      (items.foldl (Engine.walkStep crypto ignore nanos) (manifest, second)).1 := by
  induction items generalizing manifest first second with
  | nil => rfl
  | cons item rest ih =>
      have hstep := @Trails.walkStep crypto ignore nanos leftover first second htrails item
        (htrue item (by simp)) manifest
      rcases hfirst : Engine.walkStep crypto ignore nanos (manifest, first) item with ⟨listed, memo⟩
      rcases hsecond : Engine.walkStep crypto ignore nanos (manifest, second) item with
        ⟨listed', memo'⟩
      rw [hfirst, hsecond] at hstep
      obtain ⟨rfl, hnext⟩ : listed = listed' ∧ Trails leftover memo memo' := hstep
      rw [List.foldl_cons, List.foldl_cons, hfirst, hsecond]
      exact ih hnext (fun later hlater => htrue later (List.mem_cons_of_mem _ hlater)) listed

end HashCache

/-- A memo that says nothing wrong of the files in a folder does not change what
the walk lists. -/
theorem buildManifestWithCache_of_true {crypto : Crypto} {ignore : IgnoreRules}
    {nanos : String → Nat} {cache : HashCache} {folder : Folder}
    (htrue : ∀ item ∈ folder.toList, cache.TrueOf crypto nanos item) :
    buildManifestWithCache crypto ignore nanos cache folder =
      buildManifestWithCache crypto ignore nanos (HashCache.empty crypto) folder := by
  have hstart : HashCache.Trails cache cache (HashCache.empty crypto) := by
    intro path
    right
    simp [HashCache.empty]
  exact hstart.foldl htrue ∅

end ObSink.Engine
