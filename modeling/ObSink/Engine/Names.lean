import Mathlib.Data.List.Pairwise
import ObSink.Engine.HashCache
import ObSink.Lib.Lossy
import ObSink.Lib.Posix

/-! # Names on disk and keys of the manifest

The walk of `core/src/hasher.rs` over a folder whose names are bytes, as on Unix:
the path of a file is read as UTF-8, whatever it is, and every `\` in it becomes a
`/`. The key made so is joined to the vault's root again when the file is read for
an upload (`prepare_batch_op` of `core/src/sync_engine.rs`).
-/

namespace ObSink.Engine

/-- What Unix takes for a name. -/
structure ByteName where
  bytes : Bytes
  ne_empty : bytes ≠ []
  ne_dot : bytes ≠ [0x2E]
  ne_parent : bytes ≠ [0x2E, 0x2E]
  no_slash : 0x2F ∉ bytes
  no_nul : 0x00 ∉ bytes

@[ext] theorem ByteName.ext {first second : ByteName} (hbytes : first.bytes = second.bytes) :
    first = second := by
  cases first
  cases second
  simpa using hbytes

/-- A regular file below the vault's root: the names that lead to it, what it
holds, and the part of its modification time below a second. -/
structure FoundFile where
  location : List ByteName
  stored : StoredFile
  nanos : Nat
  nonempty : location ≠ []

namespace FoundFile

def names (file : FoundFile) : List Bytes := file.location.map ByteName.bytes

/-- `to_string_lossy` of the path below the root. -/
def relative (file : FoundFile) : String := Lossy.fromUtf8 ([0x2F].intercalate file.names)

def key (file : FoundFile) : String := normalizePath file.relative

end FoundFile

/-- The regular files below the vault's root, as the walk meets them. None is a
directory on the way to another. -/
structure FileTree where
  files : List FoundFile
  apart : files.Pairwise fun first second =>
    ¬ first.location <+: second.location ∧ ¬ second.location <+: first.location

namespace FileTree

/-- The walk, with the memo it starts from. -/
def walk (crypto : Crypto) (ignore : IgnoreRules) (cache : HashCache)
    (tree : FileTree) : Manifest :=
  (tree.files.foldl (fun walked file =>
    walkStep crypto ignore (fun _ => file.nanos) walked (file.relative, file.stored)) (∅, cache)).1

/-- The files that are not ignored. -/
def walked (ignore : IgnoreRules) (tree : FileTree) : List FoundFile :=
  tree.files.filter fun file => !ignore.isIgnored file.key

/-- Read what stands at a location. -/
def read (tree : FileTree) (root location : List String) : Option Bytes :=
  (tree.files.find? fun file => root.map utf8 ++ file.names = location.map utf8).map
    fun file => file.stored.content

end FileTree

instance : Std.Symm fun first second : FoundFile =>
    ¬ first.location <+: second.location ∧ ¬ second.location <+: first.location where
  symm _ _ hapart := ⟨hapart.2, hapart.1⟩

/-- What the memo says of the files is the hash of their contents. -/
def HashCache.TrueOfTree (crypto : Crypto) (cache : HashCache) (tree : FileTree) : Prop :=
  ∀ file ∈ tree.files, cache.TrueOf crypto (fun _ => file.nanos) (file.relative, file.stored)

/-- Every file goes by a path of its own that leads back to it. -/
structure FileTree.LeadsBack (crypto : Crypto) (ignore : IgnoreRules) (tree : FileTree) : Prop where
  /-- Different files have different keys. -/
  apart : ∀ first ∈ tree.walked ignore, ∀ second ∈ tree.walked ignore,
    first.key = second.key → first = second
  /-- The key joined to the root names the file. -/
  leads : ∀ file ∈ tree.walked ignore, ∀ root : List String,
    (Posix.join root file.key).map utf8 = root.map utf8 ++ file.names
  /-- No component is empty, a dot or a parent. -/
  proper : ∀ file ∈ tree.walked ignore, ∀ name ∈ Posix.components file.key, Posix.IsName name
  /-- Reading what is listed gives what was hashed. -/
  reads : ∀ cache : HashCache, cache.TrueOfTree crypto tree →
    ∀ key entry, (tree.walk crypto ignore cache)[key]? = some entry →
      ∀ root, ∃ content, tree.read root (Posix.join root key) = some content ∧
        entry.hash = crypto.contentHmac content

/-- UTF-8 without a backslash. -/
def ByteName.IsPlain (name : ByteName) : Prop :=
  ∃ text, name.bytes = utf8 text ∧ '\\' ∉ text.toList

/-! ## Texts and their bytes -/

theorem utf8_intercalate (texts : List String) :
    utf8 (String.intercalate "/" texts) = [0x2F].intercalate (texts.map utf8) := by
  induction texts with
  | nil => rfl
  | cons text rest ih =>
      cases rest with
      | nil => simp
      | cons next others =>
          rw [String.intercalate_cons_cons, utf8_append, utf8_append, ih]
          simp [List.intercalate_cons_cons, show utf8 "/" = [0x2F] from rfl]

theorem slash_mem_utf8 {text : String} (hslash : '/' ∈ text.toList) : 0x2F ∈ utf8 text := by
  rw [utf8, Lossy.toUTF8_toList, List.mem_flatMap]
  exact ⟨'/', hslash, by decide⟩

theorem normalizePath_not_mem (path : String) : '\\' ∉ (normalizePath path).toList := by
  rw [normalizePath, String.toList_ofList, List.mem_map]
  rintro ⟨c, _, hc⟩
  split at hc
  next => cases hc
  next hne => exact hne hc

/-- A name that is UTF-8 is a component on its own. -/
theorem ByteName.isName {name : ByteName} {text : String} (htext : name.bytes = utf8 text) :
    Posix.IsName text where
  ne_empty := by
    rintro rfl
    exact name.ne_empty htext
  ne_dot := by
    rintro rfl
    exact name.ne_dot htext
  ne_parent := by
    rintro rfl
    exact name.ne_parent htext
  no_slash hslash := name.no_slash (htext ▸ slash_mem_utf8 hslash)

theorem exists_texts {location : List ByteName} (hplain : ∀ name ∈ location, name.IsPlain) :
    ∃ texts : List String, location.map ByteName.bytes = texts.map utf8 ∧
      ∀ text ∈ texts, Posix.IsName text ∧ '\\' ∉ text.toList := by
  induction location with
  | nil => exact ⟨[], rfl, by simp⟩
  | cons name rest ih =>
      obtain ⟨texts, hbytes, htexts⟩ := ih fun other hother => hplain other (by simp [hother])
      obtain ⟨text, htext, hback⟩ := hplain name (by simp)
      refine ⟨text :: texts, by simp [htext, hbytes], ?_⟩
      intro other hother
      rcases List.mem_cons.mp hother with rfl | hrest
      · exact ⟨ByteName.isName htext, hback⟩
      · exact htexts other hrest

namespace FoundFile

variable {file : FoundFile}

/-- The key of a file with plain names is these names. -/
theorem key_of_plain (hplain : ∀ name ∈ file.location, name.IsPlain) :
    ∃ texts : List String, texts ≠ [] ∧ file.names = texts.map utf8 ∧
      (∀ text ∈ texts, Posix.IsName text) ∧ file.key = String.intercalate "/" texts := by
  obtain ⟨texts, hbytes, htexts⟩ := exists_texts hplain
  have hne : texts ≠ [] := by
    rintro rfl
    exact file.nonempty (List.map_eq_nil_iff.mp hbytes)
  refine ⟨texts, hne, hbytes, fun text htext => (htexts text htext).1, ?_⟩
  have hrelative : file.relative = String.intercalate "/" texts := by
    rw [relative, names, hbytes, ← utf8_intercalate]
    exact Lossy.fromUtf8_toUTF8 _
  rw [key, hrelative]
  apply normalizePath_eq_self
  rw [String.toList_intercalate]
  intro hmem
  rcases mem_of_mem_intercalate hmem with hslash | ⟨part, hpart, hback⟩
  · exact absurd hslash (by decide)
  · obtain ⟨text, htext, rfl⟩ := List.mem_map.mp hpart
    exact (htexts text htext).2 hback

theorem join_of_plain (hplain : ∀ name ∈ file.location, name.IsPlain) (root : List String) :
    (Posix.join root file.key).map utf8 = root.map utf8 ++ file.names := by
  obtain ⟨texts, hne, hnames, hproper, hkey⟩ := key_of_plain hplain
  rw [hkey, Posix.join_intercalate hne hproper, List.map_append, hnames]

/-- Only plain names can come back. -/
theorem plain_of_join {root : List String}
    (hjoin : (Posix.join root file.key).map utf8 = root.map utf8 ++ file.names) :
    ∀ name ∈ file.location, name.IsPlain := by
  obtain ⟨above, texts, hsplit, habove, htexts⟩ := List.map_eq_append_iff.mp hjoin
  obtain rfl := List.map_injective_iff.mpr utf8_injective habove
  intro name hname
  have hbytes : name.bytes ∈ texts.map utf8 := by
    rw [htexts]
    exact List.mem_map_of_mem hname
  obtain ⟨text, htext, hsame⟩ := List.mem_map.mp hbytes
  refine ⟨text, hsame.symm, ?_⟩
  intro hback
  exact normalizePath_not_mem file.relative
    (Posix.mem_of_mem_components (Posix.subset_components_of_join hsplit htext) hback)

theorem location_eq {first second : FoundFile} (hnames : first.names = second.names) :
    first.location = second.location :=
  List.map_injective_iff.mpr (fun _ _ => ByteName.ext) hnames

end FoundFile

namespace FileTree

variable {crypto : Crypto} {ignore : IgnoreRules} {tree : FileTree}

theorem mem_walked {file : FoundFile} :
    file ∈ tree.walked ignore ↔ file ∈ tree.files ∧ ignore.isIgnored file.key = false := by
  simp [walked]

theorem eq_of_location {first second : FoundFile} (hfirst : first ∈ tree.files)
    (hsecond : second ∈ tree.files) (hlocation : first.location = second.location) :
    first = second := by
  by_contra hne
  have happart := tree.apart.forall hfirst hsecond hne
  exact happart.1 (hlocation ▸ List.prefix_rfl)

/-- What stands where a file is, is the file. -/
theorem read_of_mem {file : FoundFile} (hfile : file ∈ tree.files) {root location : List String}
    (hlocation : location.map utf8 = root.map utf8 ++ file.names) :
    tree.read root location = some file.stored.content := by
  cases hfound : tree.files.find? fun other => root.map utf8 ++ other.names = location.map utf8 with
  | none =>
      rw [List.find?_eq_none] at hfound
      exact absurd (decide_eq_true hlocation.symm) (hfound file hfile)
  | some other =>
      have hsame := List.find?_some hfound
      rw [decide_eq_true_eq, hlocation, List.append_cancel_left_eq] at hsame
      have hother := eq_of_location (List.mem_of_find?_eq_some hfound) hfile
        (FoundFile.location_eq hsame)
      rw [read, hfound, hother, Option.map_some]

theorem walkStep_ignored {file : FoundFile} (hignored : ignore.isIgnored file.key = true)
    (nanos : String → Nat) (walked : Manifest × HashCache) :
    walkStep crypto ignore nanos walked (file.relative, file.stored) = walked := by
  rw [FoundFile.key] at hignored
  simp only [walkStep, hignored, ↓reduceIte]

/-- A file that is not ignored is listed with the hash of its content, and noted at
most under its own key. -/
theorem walkStep_listed {file : FoundFile} (hlisted : ignore.isIgnored file.key = false)
    (manifest : Manifest) {cache : HashCache}
    (htrue : cache.TrueOf crypto (fun _ => file.nanos) (file.relative, file.stored)) :
    ∃ entry memo,
      walkStep crypto ignore (fun _ => file.nanos) (manifest, cache) (file.relative, file.stored) =
        (manifest.insert file.key entry, memo) ∧
      entry.hash = crypto.contentHmac file.stored.content ∧
      ∀ other, file.key ≠ other → ∀ stat, memo.lookup other stat = cache.lookup other stat := by
  rw [FoundFile.key] at hlisted ⊢
  cases hfound : cache.lookup (normalizePath file.relative) (statOf file.nanos file.stored) with
  | some hash =>
      refine ⟨{ walkEntry crypto file.stored with hash }, cache, ?_, htrue hash hfound,
        fun _ _ _ => rfl⟩
      simp only [walkStep, hlisted, hfound]
      rfl
  | none =>
      refine ⟨walkEntry crypto file.stored, cache.insert (normalizePath file.relative)
        (statOf file.nanos file.stored) (crypto.contentHmac file.stored.content), ?_, rfl, ?_⟩
      · simp only [walkStep, hlisted, hfound]
        rfl
      · intro other hother stat
        simp only [HashCache.lookup, HashCache.insert,
          Std.ExtTreeMap.getElem?_insert_of_ne _ _ hother]

/-- Every entry is of a file that is not ignored and has the hash of what it holds,
as long as keys tell files apart. -/
theorem walk_entries {files : List FoundFile} {manifest : Manifest} {cache : HashCache}
    (hkeys : files.Pairwise fun first second => first.key = second.key →
      ignore.isIgnored first.key = true)
    (htrue : ∀ file ∈ files, cache.TrueOf crypto (fun _ => file.nanos) (file.relative, file.stored))
    {key : String} {entry : FileEntry}
    (hentry : (files.foldl (fun walked file => walkStep crypto ignore (fun _ => file.nanos) walked
      (file.relative, file.stored)) (manifest, cache)).1[key]? = some entry) :
    manifest[key]? = some entry ∨ ∃ file ∈ files, ignore.isIgnored file.key = false ∧
      file.key = key ∧ entry.hash = crypto.contentHmac file.stored.content := by
  induction files generalizing manifest cache with
  | nil => exact Or.inl hentry
  | cons file rest ih =>
      rw [List.pairwise_cons] at hkeys
      have htrueFile := htrue file List.mem_cons_self
      have htrueRest : ∀ other ∈ rest,
          cache.TrueOf crypto (fun _ => other.nanos) (other.relative, other.stored) :=
        fun other hother => htrue other (List.mem_cons_of_mem _ hother)
      rw [List.foldl_cons] at hentry
      cases hignored : ignore.isIgnored file.key with
      | true =>
          rw [walkStep_ignored hignored] at hentry
          exact (ih hkeys.2 htrueRest hentry).imp_right
            fun ⟨other, hother, hrest⟩ => ⟨other, List.mem_cons_of_mem _ hother, hrest⟩
      | false =>
          obtain ⟨noted, memo, hstep, hhash, hmemo⟩ := walkStep_listed hignored manifest htrueFile
          rw [hstep] at hentry
          have htrueNext : ∀ other ∈ rest,
              memo.TrueOf crypto (fun _ => other.nanos) (other.relative, other.stored) := by
            intro other hother hash hlookup
            have hkey : file.key ≠ other.key := by
              intro hsame
              rw [hkeys.1 other hother hsame] at hignored
              cases hignored
            exact htrueRest other hother hash ((hmemo other.key hkey _).symm.trans hlookup)
          rcases ih hkeys.2 htrueNext hentry with hinsert | ⟨other, hother, hrest⟩
          · by_cases hkey : file.key = key
            · rw [hkey, Std.ExtTreeMap.getElem?_insert_self] at hinsert
              obtain rfl := Option.some.inj hinsert
              exact Or.inr ⟨file, List.mem_cons_self, hignored, hkey, hhash⟩
            · left
              rw [← hinsert, Std.ExtTreeMap.getElem?_insert_of_ne _ _ hkey]
          · exact Or.inr ⟨other, List.mem_cons_of_mem _ hother, hrest⟩

end FileTree

/-- A walk names every file by a path that leads back to it just when the names
of the files it lists are UTF-8 without backslashes. -/
theorem walk_leads_back_iff (crypto : Crypto) (ignore : IgnoreRules) (tree : FileTree) :
    tree.LeadsBack crypto ignore ↔
      ∀ file ∈ tree.walked ignore, ∀ name ∈ file.location, name.IsPlain := by
  constructor
  · intro hback file hfile
    exact FoundFile.plain_of_join (hback.leads file hfile [])
  intro hplain
  have hleads : ∀ file ∈ tree.walked ignore, ∀ root : List String,
      (Posix.join root file.key).map utf8 = root.map utf8 ++ file.names :=
    fun file hfile root => FoundFile.join_of_plain (hplain file hfile) root
  have hkeys : ∀ first ∈ tree.walked ignore, ∀ second ∈ tree.walked ignore,
      first.key = second.key → first = second := by
    intro first hfirst second hsecond hkey
    have hnames := (hleads first hfirst []).symm.trans (hkey ▸ hleads second hsecond [])
    exact FileTree.eq_of_location (FileTree.mem_walked.mp hfirst).1
      (FileTree.mem_walked.mp hsecond).1 (FoundFile.location_eq hnames)
  refine ⟨hkeys, hleads, ?_, ?_⟩
  · intro file hfile name hname
    obtain ⟨texts, hne, _, hproper, hkey⟩ := FoundFile.key_of_plain (hplain file hfile)
    rw [hkey, Posix.components_intercalate hne fun text htext => (hproper text htext).no_slash]
      at hname
    exact hproper name hname
  · intro cache htrue key entry hentry root
    have hpairs : tree.files.Pairwise fun first second => first.key = second.key →
        ignore.isIgnored first.key = true := by
      refine tree.apart.imp_of_mem ?_
      intro first second hfirst hsecond hapart hsame
      by_contra hlisted
      rw [Bool.not_eq_true] at hlisted
      have hequal := hkeys first (FileTree.mem_walked.mpr ⟨hfirst, hlisted⟩) second
        (FileTree.mem_walked.mpr ⟨hsecond, hsame ▸ hlisted⟩) hsame
      exact hapart.1 (hequal ▸ List.prefix_rfl)
    rcases FileTree.walk_entries hpairs htrue hentry with hnone | ⟨file, hfile, hlisted, rfl, hhash⟩
    · simp at hnone
    · exact ⟨file.stored.content, FileTree.read_of_mem hfile
        (hleads file (FileTree.mem_walked.mpr ⟨hfile, hlisted⟩) root), hhash⟩

/-- A note in the vault's root whose name has a backslash. -/
def backslashNote : FoundFile where
  location := [⟨utf8 "a\\b", by decide, by decide, by decide, by decide, by decide⟩]
  stored := ⟨[1], 0⟩
  nanos := 0
  nonempty := by decide

/-- Its key names a file `b` of a directory `a`. -/
theorem backslash_note_is_not_found :
    ¬ ∀ (crypto : Crypto) (ignore : IgnoreRules) (tree : FileTree),
      tree.LeadsBack crypto ignore := by
  intro hall
  have hback := hall .sample .defaults ⟨[backslashNote], List.pairwise_singleton _ _⟩
  have hkey : backslashNote.key = "a/b" := by
    have hrelative : backslashNote.relative = "a\\b" := Lossy.fromUtf8_toUTF8 "a\\b"
    rw [FoundFile.key, hrelative]
    decide
  have hlisted : IgnoreRules.defaults.isIgnored backslashNote.key = false := by
    rw [hkey]
    decide
  have hleads := hback.leads backslashNote
    (FileTree.mem_walked.mpr ⟨List.mem_singleton_self _, hlisted⟩) []
  rw [hkey] at hleads
  exact absurd hleads (by decide)

end ObSink.Engine
