import ObSink.Engine.Plan

/-! # Two walks of one folder

The native walker (`core/src/hasher.rs`) tests every file of a folder against the
ignore rules; the browser's scan (`web/src/worker/fs.ts`) tests directories too and
skips an ignored one whole. What each makes of the files is in
`web/src/worker/manifest.ts` and in `Engine.Cycle`.
-/

namespace ObSink.Web

open Engine
open Std.ExtTreeMap (insertAll exists_getElem?_insertAll getElem?_insertAll_of_not_mem)

/-! ## Folders as trees -/

/-- The name of a file or a directory. -/
structure FileName where
  text : String
  nonempty : text.toList ≠ []
  noSlash : '/' ∉ text.toList
  deriving DecidableEq

/-- The entries of a directory, in the order the file system lists them. -/
inductive Tree where
  | nil
  | file (name : FileName) (stored : StoredFile) (rest : Tree)
  | dir (name : FileName) (entries : Tree) (rest : Tree)

/-- A name below a directory; the root has no path. -/
def under (dir : String) (name : FileName) : String :=
  if dir = "" then name.text else dir ++ "/" ++ name.text

/-- Names from the root down, as a path. -/
def pathOf (location : List FileName) : String := location.foldl under ""

/-- Every file with the names that lead to it. -/
def Tree.files (dir : List FileName) : Tree → List (List FileName × StoredFile)
  | .nil => []
  | .file name stored rest => (dir ++ [name], stored) :: rest.files dir
  | .dir name entries rest => entries.files (dir ++ [name]) ++ rest.files dir

/-- The native walk: every file, by its path with `/` separators, unless that
is ignored. -/
def Tree.walk (ignore : IgnoreRules) (tree : Tree) : List (String × StoredFile) :=
  (tree.files []).filterMap fun (location, stored) =>
    let key := normalizePath (pathOf location)
    if ignore.isIgnored key then none else some (key, stored)

/-- The browser's scan of a directory. -/
def Tree.scan (ignore : IgnoreRules) (dir : String) : Tree → List (String × StoredFile)
  | .nil => []
  | .file name stored rest =>
      if ignore.isIgnored (under dir name) then rest.scan ignore dir
      else (under dir name, stored) :: rest.scan ignore dir
  | .dir name entries rest =>
      if ignore.isIgnored (under dir name) then rest.scan ignore dir
      else entries.scan ignore (under dir name) ++ rest.scan ignore dir

/-- The files a scan found, as a manifest. -/
def manifestOf (crypto : Crypto) (files : List (String × StoredFile)) : Manifest :=
  files.foldl (fun manifest (path, stored) => manifest.insert path (walkEntry crypto stored)) ∅

/-- One entry of the base, as a tombstone if nothing is there any more. -/
def addTombstone (now : Nat) (working : Manifest) (entry : String × FileEntry) : Manifest :=
  if working.contains entry.1 || entry.2.deleted then working
  else working.insert entry.1 { entry.2 with modified := now, deleted := true }

def buildWorkingManifest (crypto : Crypto) (now : Nat) (files : List (String × StoredFile))
    (base : Manifest) : Manifest :=
  base.toList.foldl (addTombstone now) (manifestOf crypto files)

/-- The folder as the engine sees it: its files by path. -/
def Tree.folder (tree : Tree) : Folder :=
  (tree.files []).foldl (fun folder (location, stored) => folder.insert (pathOf location) stored) ∅

/-! ## Paths -/

theorem pathOf_concat (location : List FileName) (name : FileName) :
    pathOf (location ++ [name]) = under (pathOf location) name := by
  simp [pathOf, List.foldl_append]

theorem under_toList (dir : String) (name : FileName) :
    (under dir name).toList =
      if dir = "" then name.text.toList else dir.toList ++ '/' :: name.text.toList := by
  unfold under
  split <;> simp

theorem under_ne_empty (dir : String) (name : FileName) : under dir name ≠ "" := by
  intro hempty
  have hlist := under_toList dir name
  rw [hempty] at hlist
  split at hlist
  next => exact name.nonempty hlist.symm
  next => simp at hlist

theorem pathOf_ne_empty {location : List FileName} (hne : location ≠ []) :
    pathOf location ≠ "" := by
  rw [← List.dropLast_concat_getLast hne, pathOf_concat]
  exact under_ne_empty _ _

/-- A path below another one goes on after a `/`. -/
theorem pathOf_append {dir : List FileName} (hdir : dir ≠ []) {rest : List FileName}
    (hrest : rest ≠ []) :
    ∃ tail, (pathOf (dir ++ rest)).toList = (pathOf dir).toList ++ '/' :: tail := by
  induction rest using List.reverseRecOn with
  | nil => exact absurd rfl hrest
  | append_singleton init last ih =>
      have hlast : ∀ init, (pathOf (dir ++ (init ++ [last]))).toList =
          (pathOf (dir ++ init)).toList ++ '/' :: last.text.toList := by
        intro init
        rw [← List.append_assoc, pathOf_concat, under_toList, if_neg]
        exact pathOf_ne_empty (by simp [hdir])
      rw [hlast]
      by_cases hinit : init = []
      · subst hinit
        exact ⟨last.text.toList, by simp⟩
      · obtain ⟨tail, htail⟩ := ih hinit
        exact ⟨tail ++ '/' :: last.text.toList, by simp [htail]⟩

/-- No path of a tree starts with a separator. -/
theorem pathOf_not_rooted (location : List FileName) (rest : List Char) :
    (pathOf location).toList ≠ '/' :: rest := by
  induction location using List.reverseRecOn generalizing rest with
  | nil => simp [pathOf]
  | append_singleton init last ih =>
      rw [pathOf_concat, under_toList]
      split
      next =>
        intro heq
        exact last.noSlash (heq ▸ List.mem_cons_self)
      next hne =>
        intro heq
        cases hinit : (pathOf init).toList with
        | nil => exact hne (String.toList_eq_nil_iff.mp hinit)
        | cons c others =>
            rw [hinit] at heq
            obtain rfl := (List.cons.inj heq).1
            exact ih others hinit

theorem isIgnored_pathOf (ignore : IgnoreRules) (location : List FileName) :
    ignore.isIgnored (pathOf location) = ignore.rules.any (·.matches (pathOf location)) := by
  have htrim : (pathOf location).toList.dropWhile (· = '/') = (pathOf location).toList := by
    cases hchars : (pathOf location).toList with
    | nil => rfl
    | cons c rest =>
        have hne : c ≠ '/' := by
          rintro rfl
          exact pathOf_not_rooted location rest hchars
        simp [hne]
  simp only [IgnoreRules.isIgnored, htrim, String.ofList_toList]

/-! ## What the scan finds -/

/-- Neither the file nor a directory below the first `depth` names is ignored. -/
def visibleFrom (ignore : IgnoreRules) (depth : Nat) (location : List FileName) : Bool :=
  location.inits.all fun above => above.length ≤ depth || !ignore.isIgnored (pathOf above)

theorem visibleFrom_iff {ignore : IgnoreRules} {depth : Nat} {location : List FileName} :
    visibleFrom ignore depth location = true ↔ ∀ above, above <+: location → depth < above.length →
      ignore.isIgnored (pathOf above) = false := by
  simp only [visibleFrom, List.all_eq_true, List.mem_inits, Bool.or_eq_true, decide_eq_true_eq,
    Bool.not_eq_true']
  refine forall₂_congr fun above _ => ?_
  constructor
  · rintro (hle | hseen) hlt
    · omega
    · exact hseen
  · intro hseen
    by_cases hlt : depth < above.length
    · exact Or.inr (hseen hlt)
    · exact Or.inl (by omega)

theorem dir_prefix_of_mem_files {dir : List FileName} {tree : Tree}
    {found : List FileName × StoredFile} (hfound : found ∈ tree.files dir) :
    ∃ rest, rest ≠ [] ∧ found.1 = dir ++ rest := by
  induction tree generalizing dir with
  | nil => cases hfound
  | file name stored rest ih =>
      rcases List.mem_cons.mp hfound with rfl | hrest
      · exact ⟨[name], by simp, rfl⟩
      · exact ih hrest
  | dir name entries rest ihEntries ihRest =>
      rcases List.mem_append.mp hfound with hentry | hrest
      · obtain ⟨tail, _, heq⟩ := ihEntries hentry
        exact ⟨name :: tail, by simp, by simp [heq]⟩
      · exact ihRest hrest

/-- Below a directory that is not ignored, only what is deeper still counts. -/
theorem visibleFrom_succ {ignore : IgnoreRules} {dir rest : List FileName} {name : FileName}
    (hseen : ignore.isIgnored (pathOf (dir ++ [name])) = false) :
    visibleFrom ignore dir.length ((dir ++ [name]) ++ rest) =
      visibleFrom ignore (dir ++ [name]).length ((dir ++ [name]) ++ rest) := by
  rw [Bool.eq_iff_iff, visibleFrom_iff, visibleFrom_iff]
  refine forall₂_congr fun above hprefix => ?_
  constructor
  · intro hall hdeep
    exact hall (by simp at hdeep; omega)
  · intro hall hdeep
    by_cases hdeeper : (dir ++ [name]).length < above.length
    · exact hall hdeeper
    · have hlength : above.length = (dir ++ [name]).length := by
        simp only [List.length_append, List.length_singleton] at hdeeper ⊢
        omega
      have habove : above = dir ++ [name] :=
        (List.prefix_of_prefix_length_le hprefix (List.prefix_append _ _) hlength.le).eq_of_length
          hlength
      rw [habove]
      exact hseen

/-- The scan leaves out what is ignored and what lies below it. -/
theorem scan_eq_filter (ignore : IgnoreRules) (dir : List FileName) (tree : Tree) :
    tree.scan ignore (pathOf dir) =
      ((tree.files dir).filter fun found => visibleFrom ignore dir.length found.1).map
        fun found => (pathOf found.1, found.2) := by
  induction tree generalizing dir with
  | nil => rfl
  | file name stored rest ih =>
      have hown : visibleFrom ignore dir.length (dir ++ [name]) =
          !ignore.isIgnored (pathOf (dir ++ [name])) := by
        cases hseen : ignore.isIgnored (pathOf (dir ++ [name])) with
        | true =>
            rw [Bool.not_true, Bool.eq_false_iff]
            intro hvisible
            have hnot := visibleFrom_iff.mp hvisible _ (List.prefix_refl _) (by simp)
            rw [hseen] at hnot
            cases hnot
        | false =>
            have hsame := @visibleFrom_succ ignore dir [] name hseen
            rw [List.append_nil] at hsame
            rw [hsame, Bool.not_false, visibleFrom_iff]
            intro above hprefix hlt
            exact absurd hprefix.length_le (by omega)
      rw [Tree.scan, Tree.files, List.filter_cons, hown, ← pathOf_concat, ih]
      cases ignore.isIgnored (pathOf (dir ++ [name])) <;> rfl
  | dir name entries rest ihEntries ihRest =>
      rw [Tree.scan, Tree.files, List.filter_append, List.map_append, ← pathOf_concat, ihRest]
      cases hseen : ignore.isIgnored (pathOf (dir ++ [name])) with
      | true =>
          have hnone : (entries.files (dir ++ [name])).filter
              (fun found => visibleFrom ignore dir.length found.1) = [] := by
            refine List.filter_eq_nil_iff.mpr fun found hfound hvisible => ?_
            obtain ⟨tail, _, heq⟩ := dir_prefix_of_mem_files hfound
            have hnot := visibleFrom_iff.mp hvisible (dir ++ [name])
              (heq ▸ List.prefix_append _ _) (by simp)
            rw [hseen] at hnot
            cases hnot
          rw [hnone]
          rfl
      | false =>
          have hsame : (entries.files (dir ++ [name])).filter
              (fun found => visibleFrom ignore dir.length found.1) =
              (entries.files (dir ++ [name])).filter
                (fun found => visibleFrom ignore (dir ++ [name]).length found.1) := by
            refine List.filter_congr fun found hfound => ?_
            obtain ⟨tail, _, heq⟩ := dir_prefix_of_mem_files hfound
            rw [heq]
            exact visibleFrom_succ hseen
          rw [hsame, ihEntries]
          rfl

/-! ## Directories whose path ends in a suffix -/

/-- A file that syncs, below a directory whose path ends in the text of a
suffix rule. -/
def UnderSuffix (ignore : IgnoreRules) (location : List FileName) : Prop :=
  ignore.isIgnored (pathOf location) = false ∧ ∃ dir rest, dir ≠ [] ∧ rest ≠ [] ∧
    location = dir ++ rest ∧
    ∃ text, .suffix text ∈ ignore.rules ∧ text.toList <:+ (pathOf dir).toList

/-- What is below an ignored directory is ignored, but for suffix rules. -/
theorem ignored_below {ignore : IgnoreRules} {dir rest : List FileName} (hdir : dir ≠ [])
    (hrest : rest ≠ []) (hignored : ignore.isIgnored (pathOf dir) = true)
    (hseen : ignore.isIgnored (pathOf (dir ++ rest)) = false) :
    UnderSuffix ignore (dir ++ rest) := by
  refine ⟨hseen, dir, rest, hdir, hrest, rfl, ?_⟩
  rw [isIgnored_pathOf, List.any_eq_true] at hignored
  obtain ⟨rule, hmem, hmatch⟩ := hignored
  obtain ⟨tail, hbelow⟩ := pathOf_append hdir hrest
  rcases rule.matches_below hbelow hmatch with hfile | ⟨text, rfl⟩
  · rw [isIgnored_pathOf, List.any_eq_false] at hseen
    exact absurd hfile (hseen rule hmem)
  · exact ⟨text, hmem, List.isSuffixOf_iff_suffix.mp hmatch⟩

/-- A directory above a file under a suffix is ignored. -/
theorem UnderSuffix.dir_ignored {ignore : IgnoreRules} {location : List FileName}
    (hunder : UnderSuffix ignore location) :
    ∃ dir rest, dir ≠ [] ∧ rest ≠ [] ∧ location = dir ++ rest ∧
      ignore.isIgnored (pathOf dir) = true := by
  obtain ⟨_, dir, rest, hdir, hrest, heq, text, hmem, hsuffix⟩ := hunder
  refine ⟨dir, rest, hdir, hrest, heq, ?_⟩
  rw [isIgnored_pathOf, List.any_eq_true]
  exact ⟨.suffix text, hmem, List.isSuffixOf_iff_suffix.mpr hsuffix⟩

/-- Outside such directories, the scan sees a file exactly if it is not ignored. -/
theorem visibleFrom_zero {ignore : IgnoreRules} {location : List FileName} (hne : location ≠ []) :
    visibleFrom ignore 0 location = true ↔
      ignore.isIgnored (pathOf location) = false ∧ ¬ UnderSuffix ignore location := by
  rw [visibleFrom_iff]
  constructor
  · intro hall
    refine ⟨hall location (List.prefix_refl _) (List.length_pos_iff.mpr hne), fun hunder => ?_⟩
    obtain ⟨dir, rest, hdir, _, rfl, hignored⟩ := hunder.dir_ignored
    have hnot := hall dir (List.prefix_append _ _) (List.length_pos_iff.mpr hdir)
    rw [hignored] at hnot
    cases hnot
  · rintro ⟨hseen, hnot⟩ above ⟨rest, rfl⟩ hdeep
    by_contra hignored
    rw [Bool.not_eq_false] at hignored
    by_cases hrest : rest = []
    · subst hrest
      rw [List.append_nil, hignored] at hseen
      cases hseen
    · exact hnot (ignored_below (List.length_pos_iff.mp hdeep) hrest hignored hseen)

/-! ## What each client makes of the files -/

theorem manifestOf_eq (crypto : Crypto) (files : List (String × StoredFile)) :
    manifestOf crypto files =
      insertAll (fun found => some (found.1, walkEntry crypto found.2)) ∅ files := rfl

/-- Tombstones do not change a version. -/
theorem version_foldl_addTombstone (now : Nat) (entries : List (String × FileEntry))
    (working : Manifest) (path : String) :
    version (entries.foldl (addTombstone now) working)[path]? = version working[path]? := by
  induction entries generalizing working with
  | nil => rfl
  | cons entry rest ih =>
      rw [List.foldl_cons, ih, addTombstone]
      split
      next => rfl
      next hskip =>
        by_cases heq : entry.1 = path
        · subst heq
          simp only [Bool.or_eq_true, not_or, Bool.not_eq_true] at hskip
          have hnone : working[entry.1]? = none := by
            apply Std.ExtTreeMap.getElem?_eq_none
            simp [Std.ExtTreeMap.mem_iff_contains, hskip.1]
          simp [hnone, version]
        · rw [Std.ExtTreeMap.getElem?_insert_of_ne _ _ heq]

theorem version_webWorking (crypto : Crypto) (now : Nat) (files : List (String × StoredFile))
    (base : Manifest) (path : String) :
    version (buildWorkingManifest crypto now files base)[path]? =
      version (manifestOf crypto files)[path]? :=
  version_foldl_addTombstone now _ _ _

/-- Checkpoint, server and folder have one version of every path that syncs. -/
def InSync (crypto : Crypto) (ignore : IgnoreRules) (tree : Tree) (base remote : Manifest) : Prop :=
  ∀ path, ignore.isIgnored path = false → version remote[path]? = version base[path]? ∧
    (∀ location stored, (location, stored) ∈ tree.files [] → pathOf location = path →
      version base[path]? = .present (crypto.contentHmac stored.content)) ∧
    ((∀ file ∈ tree.files [], pathOf file.1 ≠ path) → version base[path]? = .gone)

def NoDeleteRemote (base working remote : Manifest) (ignore : IgnoreRules) : Prop :=
  ∀ action ∈ (diffLocalAndRemote base working remote ignore).upload, action.kind ≠ .deleteRemote

/-- With one version on all sides nothing is uploaded. -/
theorem noDeleteRemote_of_same {base working remote : Manifest} {ignore : IgnoreRules}
    (hsame : ∀ path, ignore.isIgnored path = false →
      version working[path]? = version base[path]? ∧ version remote[path]? = version base[path]?) :
    NoDeleteRemote base working remote ignore := by
  intro action hmem _
  have hdecision := mem_diff_upload.mp hmem
  rw [decisionAt, decide3_eq, keep_getElem?, keep_getElem?, keep_getElem?] at hdecision
  cases hseen : ignore.isIgnored action.path with
  | true => simp [hseen] at hdecision
  | false =>
      obtain ⟨hworking, hremote⟩ := hsame action.path hseen
      simp [hseen, hworking, hremote] at hdecision

/-- What pruning the walk rests on: rules that are closed downwards, scans that
agree, and no remote delete planned for a folder in sync, on either client. -/
structure PruningSound (ignore : IgnoreRules) (tree : Tree) : Prop where
  closed : ∀ file ∈ tree.files [], ∀ dir rest, dir ≠ [] → rest ≠ [] → file.1 = dir ++ rest →
    ignore.isIgnored (pathOf dir) = true → ignore.isIgnored (pathOf file.1) = true
  agree : (tree.scan ignore "").Perm (tree.walk ignore)
  nativeQuiet : ∀ crypto now base remote, InSync crypto ignore tree base remote →
    NoDeleteRemote base
      (Engine.buildWorkingManifest crypto ignore now tree.folder base) remote ignore
  browserQuiet : ∀ crypto now base remote, InSync crypto ignore tree base remote →
    NoDeleteRemote base (buildWorkingManifest crypto now (tree.scan ignore "") base) remote ignore

/-- The clients treat a file alike: it is not below a directory that only a
suffix rule prunes, and if its path has two spellings, both are ignored. -/
def TreatedAlike (ignore : IgnoreRules) (location : List FileName) : Prop :=
  ¬ UnderSuffix ignore location ∧ (Plain (pathOf location) ∨
    (ignore.isIgnored (pathOf location) = true ∧
      ignore.isIgnored (normalizePath (pathOf location)) = true))

theorem location_ne_nil {tree : Tree} {file : List FileName × StoredFile}
    (hfile : file ∈ tree.files []) : file.1 ≠ [] := by
  obtain ⟨rest, hrest, heq⟩ := dir_prefix_of_mem_files hfile
  rw [heq, List.nil_append]
  exact hrest

theorem walk_eq_filter (ignore : IgnoreRules) (tree : Tree) :
    tree.walk ignore = ((tree.files []).filter fun found =>
      !ignore.isIgnored (normalizePath (pathOf found.1))).map
        fun found => (normalizePath (pathOf found.1), found.2) := by
  unfold Tree.walk
  induction tree.files [] with
  | nil => rfl
  | cons found rest ih =>
      rw [List.filterMap_cons, List.filter_cons]
      cases hseen : ignore.isIgnored (normalizePath (pathOf found.1)) <;> simp [hseen, ih]

/-- Two filters, one within the other, that keep equally many keep the same. -/
theorem filter_eq_of_length {α : Type} {p q : α → Bool} {l : List α}
    (himplies : ∀ a ∈ l, p a = true → q a = true)
    (hlength : (l.filter p).length = (l.filter q).length) : ∀ a ∈ l, q a = true → p a = true := by
  have hwithin : (l.filter q).filter p = l.filter p := by
    rw [List.filter_filter]
    refine List.filter_congr fun a ha => ?_
    cases hp : p a with
    | false => rfl
    | true => simp [himplies a ha hp]
  have hall : ∀ a ∈ l.filter q, p a = true := by
    rw [← List.length_filter_eq_length_iff, hwithin, hlength]
  intro a ha hq
  exact hall a (List.mem_filter.mpr ⟨ha, hq⟩)

/-- Where the scans agree, a path with two spellings is ignored under both. -/
theorem spelled_of_agree {ignore : IgnoreRules} {tree : Tree}
    (hclosed : ∀ file ∈ tree.files [], ¬ UnderSuffix ignore file.1)
    (hagree : (tree.scan ignore "").Perm (tree.walk ignore)) :
    ∀ file ∈ tree.files [], TreatedAlike ignore file.1 := by
  have hscan := scan_eq_filter ignore [] tree
  change tree.scan ignore "" = _ at hscan
  rw [hscan, walk_eq_filter] at hagree
  -- no path the walk lists has a second spelling
  have hplain : ∀ file ∈ tree.files [], visibleFrom ignore 0 file.1 = true →
      Plain (pathOf file.1) := by
    intro file hfile hvisible
    have hlisted := hagree.mem_iff.mp
      (List.mem_map.mpr ⟨file, List.mem_filter.mpr ⟨hfile, hvisible⟩, rfl⟩)
    obtain ⟨other, _, heq⟩ := List.mem_map.mp hlisted
    rw [← show normalizePath (pathOf other.1) = pathOf file.1 from congrArg Prod.fst heq]
    exact plain_normalizePath _
  have himplies : ∀ file ∈ tree.files [], visibleFrom ignore 0 file.1 = true →
      (!ignore.isIgnored (normalizePath (pathOf file.1))) = true := by
    intro file hfile hvisible
    rw [(hplain file hfile hvisible).normalizePath]
    simp [((visibleFrom_zero (location_ne_nil hfile)).mp hvisible).1]
  have hlength := hagree.length_eq
  rw [List.length_map, List.length_map] at hlength
  intro file hfile
  refine ⟨hclosed file hfile, ?_⟩
  by_cases hspelled : Plain (pathOf file.1)
  · exact Or.inl hspelled
  · have hhidden : visibleFrom ignore 0 file.1 ≠ true := fun hvisible =>
      hspelled (hplain file hfile hvisible)
    refine Or.inr ⟨?_, ?_⟩
    · by_contra hseen
      rw [Bool.not_eq_true] at hseen
      exact hhidden ((visibleFrom_zero (location_ne_nil hfile)).mpr ⟨hseen, hclosed file hfile⟩)
    · by_contra hseen
      exact hhidden (filter_eq_of_length himplies hlength file hfile (by simpa using hseen))

/-- Files that are treated alike are found by both. -/
theorem agree_of_treatedAlike {ignore : IgnoreRules} {tree : Tree}
    (halike : ∀ file ∈ tree.files [], TreatedAlike ignore file.1) :
    tree.scan ignore "" = tree.walk ignore := by
  have hscan := scan_eq_filter ignore [] tree
  change tree.scan ignore "" = _ at hscan
  rw [hscan, walk_eq_filter]
  have hfilter : (tree.files []).filter (fun found => visibleFrom ignore 0 found.1) =
      (tree.files []).filter fun found => !ignore.isIgnored (normalizePath (pathOf found.1)) := by
    refine List.filter_congr fun file hfile => ?_
    obtain ⟨hunder, hspelled⟩ := halike file hfile
    rw [Bool.eq_iff_iff, visibleFrom_zero (location_ne_nil hfile)]
    rcases hspelled with hplain | ⟨hown, hother⟩
    · simp [hunder, hplain.normalizePath]
    · simp [hown, hother]
  refine (congrArg _ hfilter).trans (List.map_congr_left fun file hfile => ?_)
  obtain ⟨hmem, hlisted⟩ := List.mem_filter.mp hfile
  rcases (halike file hmem).2 with hplain | ⟨_, hother⟩
  · rw [hplain.normalizePath]
  · simp [hother] at hlisted

/-- What the walk lists of a path that is not ignored. -/
theorem mem_walk {ignore : IgnoreRules} {tree : Tree}
    (halike : ∀ file ∈ tree.files [], TreatedAlike ignore file.1) {path : String}
    (hseen : ignore.isIgnored path = false) {stored : StoredFile} :
    (path, stored) ∈ tree.walk ignore ↔
      ∃ location, (location, stored) ∈ tree.files [] ∧ pathOf location = path := by
  rw [walk_eq_filter]
  constructor
  · intro hmem
    obtain ⟨⟨location, other⟩, hfile, heq⟩ := List.mem_map.mp hmem
    obtain ⟨hfile, hlisted⟩ := List.mem_filter.mp hfile
    obtain ⟨hkey, rfl⟩ := Prod.mk.inj heq
    refine ⟨location, hfile, ?_⟩
    rcases (halike _ hfile).2 with hplain | ⟨_, hother⟩
    · exact hplain.normalizePath.symm.trans hkey
    · simp [hother] at hlisted
  · rintro ⟨location, hfile, rfl⟩
    have hplain : Plain (pathOf location) := by
      rcases (halike _ hfile).2 with hplain | ⟨hown, _⟩
      · exact hplain
      · simp [hseen] at hown
    refine List.mem_map.mpr ⟨(location, stored), List.mem_filter.mpr ⟨hfile, ?_⟩, ?_⟩
    · simp [hplain.normalizePath, hseen]
    · simp [hplain.normalizePath]

/-- The folder has the files of the tree, each under its path. -/
theorem folder_getElem? {tree : Tree} {path : String} {stored : StoredFile}
    (hfile : tree.folder[path]? = some stored) :
    ∃ location, (location, stored) ∈ tree.files [] ∧ pathOf location = path := by
  by_cases hany : ∃ file ∈ tree.files [], ∃ stored,
    some (pathOf file.1, file.2) = some (path, stored)
  · obtain ⟨⟨location, other⟩, hmem, found, hitem, hlookup⟩ :=
      exists_getElem?_insertAll (fun file : List FileName × StoredFile =>
        some (pathOf file.1, file.2)) (∅ : Folder) hany
    obtain ⟨rfl, rfl⟩ := Prod.mk.inj (Option.some.inj hitem)
    obtain rfl := Option.some.inj (hfile.symm.trans hlookup)
    exact ⟨location, hmem, rfl⟩
  · have hnone := getElem?_insertAll_of_not_mem
      (fun file : List FileName × StoredFile => some (pathOf file.1, file.2)) (∅ : Folder)
        fun file hmem stored hitem => hany ⟨file, hmem, stored, hitem⟩
    rw [show tree.folder[path]? = none from hnone.trans (by simp)] at hfile
    cases hfile

theorem exists_folder_getElem? {tree : Tree} {file : List FileName × StoredFile}
    (hfile : file ∈ tree.files []) : ∃ stored, tree.folder[pathOf file.1]? = some stored := by
  obtain ⟨_, _, stored, _, hlookup⟩ :=
    exists_getElem?_insertAll (fun file => some (pathOf file.1, file.2)) (∅ : Folder)
      ⟨file, hfile, file.2, rfl⟩
  exact ⟨stored, hlookup⟩

section Quiet

variable {crypto : Crypto} {ignore : IgnoreRules} {tree : Tree} {base remote : Manifest}
  (halike : ∀ file ∈ tree.files [], TreatedAlike ignore file.1)
  (hsync : InSync crypto ignore tree base remote)

include halike hsync

/-- The native client sees the version the checkpoint has. -/
theorem version_native {path : String} (hseen : ignore.isIgnored path = false) (now : Nat) :
    version (Engine.buildWorkingManifest crypto ignore now tree.folder base)[path]? =
      version base[path]? := by
  obtain ⟨_, hfiles, hnone⟩ := hsync path hseen
  rw [version_buildWorkingManifest, buildManifest_eq_insertAll]
  refine version_insertAll ?_ ?_
  · rintro ⟨name, stored⟩ hmem entry hitem
    obtain ⟨location, hfile, rfl⟩ := folder_getElem?
      (Std.ExtTreeMap.mem_toList_iff_getElem?_eq_some.mp hmem)
    unfold listing at hitem
    split at hitem
    next => cases hitem
    next hlisted =>
      obtain ⟨hkey, rfl⟩ := Prod.mk.inj (Option.some.inj hitem)
      rcases (halike _ hfile).2 with hplain | ⟨_, hother⟩
      · exact (hfiles location stored hfile (hplain.normalizePath.symm.trans hkey)).symm
      · exact absurd hother hlisted
  · intro hlisted
    refine hnone fun file hfile hpath => ?_
    obtain ⟨stored, hlookup⟩ := exists_folder_getElem? hfile
    have hplain : Plain (pathOf file.1) := by
      rcases (halike _ hfile).2 with hplain | ⟨hown, _⟩
      · exact hplain
      · simp [hpath, hseen] at hown
    refine hlisted (pathOf file.1, stored)
      (Std.ExtTreeMap.mem_toList_iff_getElem?_eq_some.mpr hlookup) (walkEntry crypto stored) ?_
    rw [hpath] at hplain
    simp [listing, hpath, hplain.normalizePath, hseen]

/-- So does the browser. -/
theorem version_browser {path : String} (hseen : ignore.isIgnored path = false) (now : Nat) :
    version (buildWorkingManifest crypto now (tree.scan ignore "") base)[path]? =
      version base[path]? := by
  obtain ⟨_, hfiles, hnone⟩ := hsync path hseen
  rw [version_webWorking, agree_of_treatedAlike halike, manifestOf_eq]
  refine version_insertAll ?_ ?_
  · rintro ⟨name, stored⟩ hmem entry hitem
    obtain ⟨rfl, rfl⟩ := Prod.mk.inj (Option.some.inj hitem)
    obtain ⟨location, hfile, hpath⟩ := (mem_walk halike hseen).mp hmem
    exact (hfiles location stored hfile hpath).symm
  · intro hlisted
    refine hnone fun file hfile hpath => ?_
    exact hlisted (path, file.2) ((mem_walk halike hseen).mpr ⟨file.1, hfile, hpath⟩) _ rfl

end Quiet

/-- Pruning the walk is sound for a folder exactly if both clients treat each of
its files alike. -/
theorem pruning_sound_iff (ignore : IgnoreRules) (tree : Tree) :
    PruningSound ignore tree ↔ ∀ file ∈ tree.files [], TreatedAlike ignore file.1 := by
  constructor
  · intro hsound
    refine spelled_of_agree (fun file hfile hunder => ?_) hsound.agree
    obtain ⟨dir, rest, hdir, hrest, heq, hignored⟩ := hunder.dir_ignored
    have hclosed := hsound.closed file hfile dir rest hdir hrest heq hignored
    rw [hunder.1] at hclosed
    cases hclosed
  · intro halike
    refine ⟨?_, ?_, ?_, ?_⟩
    · intro file hfile dir rest hdir hrest heq hignored
      by_contra hseen
      rw [Bool.not_eq_true, heq] at hseen
      exact (halike file hfile).1 (heq ▸ ignored_below hdir hrest hignored hseen)
    · rw [agree_of_treatedAlike halike]
    · intro crypto now base remote hsync
      refine noDeleteRemote_of_same fun path hseen => ⟨?_, (hsync path hseen).1⟩
      exact version_native halike hsync hseen now
    · intro crypto now base remote hsync
      refine noDeleteRemote_of_same fun path hseen => ⟨?_, (hsync path hseen).1⟩
      exact version_browser halike hsync hseen now

/-- One file in a directory with the name of a temporary file. -/
def tempTree : Tree :=
  .dir ⟨"x.obsink-tmp", by decide, by decide⟩
    (.file ⟨"a.md", by decide, by decide⟩ ⟨[1], 1⟩ .nil) .nil

/-- The checkpoint of that folder. -/
def tempBase : Manifest :=
  (∅ : Manifest).insert "x.obsink-tmp/a.md" (walkEntry .sample ⟨[1], 1⟩)

/-- The default rules prune that directory though they do not ignore its file:
the browser takes the file for deleted and plans to delete it on the server. -/
theorem pruning_unsound_in_sample :
    (¬ ∀ patterns tree, PruningSound (.fromPatterns patterns) tree) ∧
      ((diffLocalAndRemote tempBase
        (buildWorkingManifest .sample 2 (tempTree.scan .defaults "") tempBase) tempBase
        .defaults).upload.map fun action => (action.path, action.kind)) =
          [("x.obsink-tmp/a.md", .deleteRemote)] := by
  refine ⟨fun hall => ?_, by decide +kernel⟩
  have hlength := (hall defaultIgnore tempTree).agree.length_eq
  have hdiffer : (tempTree.scan (.fromPatterns defaultIgnore) "").length ≠
      (tempTree.walk (.fromPatterns defaultIgnore)).length := by
    decide +kernel
  exact hdiffer hlength

end ObSink.Web
