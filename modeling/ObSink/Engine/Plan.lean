import ObSink.Engine.Cycle

/-! # What the sides of a diff say about a path

Lookups in the manifests a cycle builds: the working manifest of a folder and
the decoded manifest of the server's rows.
-/

namespace ObSink.Engine

open Std.ExtTreeMap (insertAll exists_getElem?_insertAll getElem?_insertAll_of_mem
  getElem?_insertAll_of_not_mem)

/-- A path that has one spelling only. -/
def Plain (path : String) : Prop := '\\' ∉ path.toList

instance (path : String) : Decidable (Plain path) :=
  inferInstanceAs (Decidable ('\\' ∉ path.toList))

theorem Plain.normalizePath {path : String} (hplain : Plain path) : normalizePath path = path :=
  normalizePath_eq_self hplain

theorem plain_normalizePath (path : String) : Plain (normalizePath path) := by
  simp only [Plain, ObSink.normalizePath, String.toList_ofList, List.mem_map, not_exists, not_and]
  intro c _ heq
  split at heq
  next => cases heq
  next hne => exact hne heq

theorem keep_getElem? (ignore : IgnoreRules) (manifest : Manifest) (path : String) :
    (keep ignore manifest)[path]? =
      if ignore.isIgnored path = true then none else manifest[path]? := by
  rw [keep, Std.ExtTreeMap.getElem?_filter']
  cases hentry : manifest[path]? with
  | none => simp
  | some entry =>
      cases ignore.isIgnored path <;> simp [Option.filter]

/-! ## The working manifest -/

/-- Every file name has one spelling only. -/
def PlainFolder (folder : Folder) : Prop :=
  ∀ path file, folder[path]? = some file → Plain path

/-- What the walk lists for a file. -/
def listing (crypto : Crypto) (ignore : IgnoreRules) (item : String × StoredFile) :
    Option (String × FileEntry) :=
  if ignore.isIgnored (normalizePath item.1) then none
  else some (normalizePath item.1, walkEntry crypto item.2)

theorem buildManifest_eq_insertAll (crypto : Crypto) (ignore : IgnoreRules) (folder : Folder) :
    buildManifest crypto ignore folder = insertAll (listing crypto ignore) ∅ folder.toList := by
  unfold buildManifest insertAll
  congr 1
  funext manifest item
  by_cases hignored : ignore.isIgnored (normalizePath item.1) = true <;> simp [listing, hignored]

/-- The version of a path from items that all bring one version there. -/
theorem version_insertAll {ε : Type} {f : ε → Option (String × FileEntry)} {items : List ε}
    {path : String} {expected : Version}
    (hfound : ∀ item ∈ items, ∀ entry, f item = some (path, entry) →
      version (some entry) = expected)
    (hmissing : (∀ item ∈ items, ∀ entry, f item ≠ some (path, entry)) → expected = .gone) :
    version (insertAll f ∅ items)[path]? = expected := by
  by_cases hany : ∃ item ∈ items, ∃ entry, f item = some (path, entry)
  · obtain ⟨item, hmem, entry, hitem, hlookup⟩ := exists_getElem?_insertAll f ∅ hany
    rw [hlookup]
    exact hfound item hmem entry hitem
  · have hnone : ∀ item ∈ items, ∀ entry, f item ≠ some (path, entry) :=
      fun item hmem entry hitem => hany ⟨item, hmem, entry, hitem⟩
    rw [getElem?_insertAll_of_not_mem f ∅ hnone, hmissing hnone]
    simp [version]

/-- What the walk lists at a path whose file, and no other, is named so. -/
theorem buildManifest_getElem?_of_named (crypto : Crypto) (ignore : IgnoreRules) {folder : Folder}
    {path : String} (hnamed : ignore.isIgnored path = false → ∀ name file,
      folder[name]? = some file → (normalizePath name = path ↔ name = path)) :
    (buildManifest crypto ignore folder)[path]? =
      if ignore.isIgnored path = true then none else folder[path]?.map (walkEntry crypto) := by
  have hlisted : ∀ item ∈ folder.toList, ∀ entry, listing crypto ignore item = some (path, entry) →
      item.1 = path ∧ ignore.isIgnored path = false ∧ entry = walkEntry crypto item.2 := by
    rintro ⟨name, file⟩ hmem entry hitem
    unfold listing at hitem
    split at hitem
    next => cases hitem
    next hignored =>
      obtain ⟨hkey, rfl⟩ := Prod.mk.inj (Option.some.inj hitem)
      have hseen : ignore.isIgnored path = false := by simpa [hkey] using hignored
      exact ⟨(hnamed hseen name file (Std.ExtTreeMap.mem_toList_iff_getElem?_eq_some.mp hmem)).mp
        hkey, hseen, rfl⟩
  rw [buildManifest_eq_insertAll]
  by_cases hignored : ignore.isIgnored path = true
  · rw [if_pos hignored, getElem?_insertAll_of_not_mem]
    · simp
    · intro item hmem entry hitem
      obtain ⟨_, hnot, _⟩ := hlisted item hmem entry hitem
      simp [hignored] at hnot
  · rw [if_neg hignored]
    cases hfile : folder[path]? with
    | none =>
        rw [getElem?_insertAll_of_not_mem]
        · simp
        · intro item hmem entry hitem
          obtain ⟨rfl, _, _⟩ := hlisted item hmem entry hitem
          rw [Std.ExtTreeMap.mem_toList_iff_getElem?_eq_some, hfile] at hmem
          cases hmem
    | some file =>
        have hmem : (path, file) ∈ folder.toList :=
          Std.ExtTreeMap.mem_toList_iff_getElem?_eq_some.mpr hfile
        have hkey : normalizePath path = path :=
          (hnamed (by simpa using hignored) path file hfile).mpr rfl
        apply getElem?_insertAll_of_mem (listing crypto ignore) ∅ hmem
        · simp [listing, hkey, hignored]
        · intro other hother entry hitem
          obtain ⟨hname, _, rfl⟩ := hlisted other hother entry hitem
          rw [Std.ExtTreeMap.mem_toList_iff_getElem?_eq_some, hname, hfile] at hother
          rw [Option.some.inj hother]

/-- The files the walk lists, when a name with two spellings is ignored under
both. -/
theorem buildManifest_getElem?_of_spelled (crypto : Crypto) (ignore : IgnoreRules) {folder : Folder}
    (hspelled : ∀ path file, folder[path]? = some file → Plain path ∨
      (ignore.isIgnored path = true ∧ ignore.isIgnored (normalizePath path) = true))
    (path : String) :
    (buildManifest crypto ignore folder)[path]? =
      if ignore.isIgnored path = true then none else folder[path]?.map (walkEntry crypto) := by
  apply buildManifest_getElem?_of_named
  intro hseen name file hname
  rcases hspelled name file hname with hplain | ⟨hown, hother⟩
  · rw [hplain.normalizePath]
  · constructor
    · rintro rfl
      simp [hother] at hseen
    · rintro rfl
      simp [hown] at hseen

theorem buildManifest_getElem? (crypto : Crypto) (ignore : IgnoreRules) {folder : Folder}
    (hplain : PlainFolder folder) (path : String) :
    (buildManifest crypto ignore folder)[path]? =
      if ignore.isIgnored path = true then none else folder[path]?.map (walkEntry crypto) :=
  buildManifest_getElem?_of_spelled crypto ignore
    (fun name file hname => Or.inl (hplain name file hname)) path

/-- A listing plus a tombstone for every live base entry it does not have: what
`buildWorkingManifest` makes of its walk. -/
def addTombstones (now : Nat) (current base : Manifest) : Manifest :=
  base.toList.foldl
    (fun working (path, entry) =>
      if current.contains path || entry.deleted then working
      else working.insert path { entry with modified := now, deleted := true })
    current

/-- The working entry of a path: the listed file, else a tombstone of a live
base entry. -/
theorem addTombstones_getElem? (now : Nat) (current base : Manifest) (path : String) :
    (addTombstones now current base)[path]? =
      match current[path]? with
      | some entry => some entry
      | none => (base[path]?.filter fun entry => !entry.deleted).map fun entry =>
          { entry with modified := now, deleted := true } := by
  let vanished : String × FileEntry → Option (String × FileEntry) := fun item =>
    if current.contains item.1 || item.2.deleted then none
    else some (item.1, { item.2 with modified := now, deleted := true })
  have hfold : addTombstones now current base = insertAll vanished current base.toList := by
    unfold addTombstones insertAll
    refine congrArg (fun step => base.toList.foldl step current) ?_
    funext working item
    by_cases hskip : (current.contains item.1 || item.2.deleted) = true
    · simp only [vanished, if_pos hskip, Option.elim_none]
    · simp only [vanished, if_neg hskip, Option.elim_some]
  -- a tombstone is added only for a live base entry that is not listed
  have hvanished : ∀ item ∈ base.toList, ∀ entry, vanished item = some (path, entry) →
      base[path]? = some item.2 ∧ current[path]? = none ∧ item.2.deleted = false ∧
        entry = { item.2 with modified := now, deleted := true } := by
    rintro ⟨name, old⟩ hmem entry hitem
    simp only [vanished] at hitem
    split at hitem
    next => cases hitem
    next hskip =>
      obtain ⟨rfl, rfl⟩ := Prod.mk.inj (Option.some.inj hitem)
      simp only [Bool.or_eq_true, not_or, Bool.not_eq_true] at hskip
      refine ⟨Std.ExtTreeMap.mem_toList_iff_getElem?_eq_some.mp hmem, ?_, hskip.2, rfl⟩
      apply Std.ExtTreeMap.getElem?_eq_none
      simp [Std.ExtTreeMap.mem_iff_contains, hskip.1]
  rw [hfold]
  cases hcurrent : current[path]? with
  | some entry =>
      rw [getElem?_insertAll_of_not_mem]
      · exact hcurrent
      · intro item hmem other hitem
        obtain ⟨_, hnone, _⟩ := hvanished item hmem other hitem
        simp [hcurrent] at hnone
  | none =>
      cases hbase : base[path]? with
      | none =>
          rw [getElem?_insertAll_of_not_mem]
          · simpa using hcurrent
          · intro item hmem other hitem
            obtain ⟨hsome, _⟩ := hvanished item hmem other hitem
            simp [hbase] at hsome
      | some old =>
          cases hdeleted : old.deleted with
          | true =>
              rw [getElem?_insertAll_of_not_mem]
              · simpa [Option.filter, hdeleted] using hcurrent
              · intro item hmem other hitem
                obtain ⟨hsome, _, hlive, _⟩ := hvanished item hmem other hitem
                rw [hbase] at hsome
                rw [← Option.some.inj hsome, hdeleted] at hlive
                cases hlive
          | false =>
              have hmem : (path, old) ∈ base.toList :=
                Std.ExtTreeMap.mem_toList_iff_getElem?_eq_some.mpr hbase
              have hnot : path ∉ current := by
                intro hin
                obtain ⟨entry, hentry⟩ := Std.ExtTreeMap.mem_iff_isSome_getElem?.mp hin |>
                  Option.isSome_iff_exists.mp
                simp [hcurrent] at hentry
              have hitem : vanished (path, old) =
                  some (path, { old with modified := now, deleted := true }) := by
                simp [vanished, hnot, hdeleted]
              rw [getElem?_insertAll_of_mem vanished current hmem hitem]
              · simp [Option.filter, hdeleted]
              · intro other hother entry hsome
                obtain ⟨hsame, _, _, rfl⟩ := hvanished other hother entry hsome
                rw [hbase] at hsame
                rw [← Option.some.inj hsame]

theorem buildWorkingManifest_getElem? (crypto : Crypto) (ignore : IgnoreRules) (now : Nat)
    (folder : Folder) (base : Manifest) (path : String) :
    (buildWorkingManifest crypto ignore now folder base)[path]? =
      match (buildManifest crypto ignore folder)[path]? with
      | some entry => some entry
      | none => (base[path]?.filter fun entry => !entry.deleted).map fun entry =>
          { entry with modified := now, deleted := true } :=
  addTombstones_getElem? now (buildManifest crypto ignore folder) base path

/-- A tombstone for what is gone does not change a version. -/
theorem version_addTombstones (now : Nat) (current base : Manifest) (path : String) :
    version (addTombstones now current base)[path]? = version current[path]? := by
  rw [addTombstones_getElem?]
  cases current[path]? with
  | some entry => rfl
  | none =>
      cases base[path]? with
      | none => rfl
      | some entry => cases hdeleted : entry.deleted <;> simp [Option.filter, hdeleted, version]

theorem version_buildWorkingManifest (crypto : Crypto) (ignore : IgnoreRules) (now : Nat)
    (folder : Folder) (base : Manifest) (path : String) :
    version (buildWorkingManifest crypto ignore now folder base)[path]? =
      version (buildManifest crypto ignore folder)[path]? :=
  version_addTombstones now (buildManifest crypto ignore folder) base path

/-- The version of a file. -/
def fileVersion (crypto : Crypto) : Option StoredFile → Version
  | some file => .present (crypto.contentHmac file.content)
  | none => .gone

/-- The local version of a path that is not ignored is that of its file. -/
theorem version_working (crypto : Crypto) (ignore : IgnoreRules) (now : Nat) {folder : Folder}
    (hplain : PlainFolder folder) (base : Manifest) {path : String}
    (hignored : ignore.isIgnored path = false) :
    version (buildWorkingManifest crypto ignore now folder base)[path]? =
      fileVersion crypto folder[path]? := by
  rw [version_buildWorkingManifest, buildManifest_getElem? crypto ignore hplain]
  simp only [hignored, Bool.false_eq_true, ↓reduceIte]
  cases folder[path]? with
  | some file => simp [version, fileVersion, walkEntry]
  | none => rfl

/-- The local side of an action on a path that is not ignored: its file, or a
tombstone. -/
theorem working_side (crypto : Crypto) (ignore : IgnoreRules) (now : Nat) {folder : Folder}
    (hplain : PlainFolder folder) (base : Manifest) {path : String}
    (hignored : ignore.isIgnored path = false) :
    let side := localOrTombstone (buildWorkingManifest crypto ignore now folder base)[path]?
      base[path]?
    (∃ file, folder[path]? = some file ∧ side = walkEntry crypto file) ∨
      (folder[path]? = none ∧ side.deleted = true) := by
  rw [buildWorkingManifest_getElem?, buildManifest_getElem? crypto ignore hplain]
  simp only [hignored, Bool.false_eq_true, ↓reduceIte]
  cases folder[path]? with
  | some file => exact Or.inl ⟨file, rfl, rfl⟩
  | none =>
      refine Or.inr ⟨rfl, ?_⟩
      cases base[path]? with
      | none => rfl
      | some entry =>
          cases hdeleted : entry.deleted <;> simp [Option.filter, hdeleted, localOrTombstone]

end ObSink.Engine
