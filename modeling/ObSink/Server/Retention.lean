import Mathlib.Data.List.Pairwise
import ObSink.Lib.StableSort
import ObSink.Server.History

/-! # Pruning old versions

`prune_versions` of `server/src/retention.rs` over the whole `_versions` tree,
against the order in which `list_history` shows a file's versions. Directories
are read in any order. Filesystem failures and entries that are not files are
not represented.
-/

namespace ObSink.Server

open StableSort (TotalPreorder)

def maxVersionsPerFile : Nat := 10

def versionRetentionSecs : Nat := 14 * 24 * 60 * 60

/-- The history directories of the versions tier, by their path below it. -/
abbrev VersionsTree := Std.ExtTreeMap String HistoryDir

/-- In which order one pass reads the directories and their entries. -/
structure Reading where
  dirs : VersionsTree → List String
  entries : String → HistoryDir → List String
  dirs_perm : ∀ tree, (dirs tree).Perm tree.keys
  entries_perm : ∀ path dir, (entries path dir).Perm dir.keys

/-- `list_history` over a directory that is read in the order of `names`. -/
def listHistoryFrom (names : List String) : List String := names.mergeSort notOlder

theorem notOlder_preorder : TotalPreorder notOlder where
  trans a b c := by
    simp only [notOlder_iff, OrderLt]
    omega
  total a b := by
    simp only [Bool.or_eq_true, notOlder_iff, OrderLt]
    omega

theorem pairwise_listing (names : List String) :
    (listHistoryFrom names).Pairwise fun left right => notOlder left right = true :=
  List.pairwise_mergeSort notOlder_preorder.trans notOlder_preorder.total names

/-- Names of different orders have one listing, however they are read. -/
theorem listHistoryFrom_eq {names sorted : List String} (hperm : sorted.Perm names)
    (hsorted : sorted.Pairwise fun newer older =>
      OrderLt (historyOrder older) (historyOrder newer)) :
    listHistoryFrom names = sorted := by
  have hdistinct : sorted.Pairwise fun left right => historyOrder left ≠ historyOrder right := by
    refine hsorted.imp fun hlt heq => ?_
    rw [heq, OrderLt] at hlt
    omega
  have hnewest : sorted.Pairwise fun left right => notOlder left right = true := by
    refine hsorted.imp fun hlt => ?_
    rw [notOlder_iff]
    rw [OrderLt] at hlt ⊢
    omega
  refine List.Perm.eq_of_pairwise ?_ (pairwise_listing names) hnewest
    ((List.mergeSort_perm _ _).trans hperm.symm)
  intro left right hleft hright hnewer holder
  by_contra hne
  have hmem : left ∈ sorted := hperm.mem_iff.mpr (List.mem_mergeSort.mp hleft)
  have : Std.Symm fun left right : String => historyOrder left ≠ historyOrder right :=
    ⟨fun _ _ => Ne.symm⟩
  apply hdistinct.forall hmem hright hne
  rw [notOlder_iff, OrderLt] at hnewer holder
  apply Prod.ext <;> omega

/-- Entry names with their timestamps, the newest second first. -/
def entriesNewestFirst (names : List String) : List (Nat × String) :=
  (names.map fun name => (extractTimestamp name, name)).mergeSort
    fun left right => decide (right.1 ≤ left.1)

def expired (now ts : Nat) : Bool := now - ts > versionRetentionSecs

/-- One directory, entry by entry; how many were removed, and what is left. -/
def pruneEntries (now : Nat) : (index : Nat) → List (Nat × String) → HistoryDir → Nat × HistoryDir
  | _, [], dir => (0, dir)
  | index, (ts, name) :: rest, dir =>
      if index ≥ maxVersionsPerFile ∨ expired now ts = true then
        let (removed, left) := pruneEntries now (index + 1) rest (dir.erase name)
        (removed + 1, left)
      else pruneEntries now (index + 1) rest dir

/-- One directory of the tree; an empty one goes. -/
def pruneDir (reading : Reading) (now : Nat) (report : Nat × VersionsTree) (path : String) :
    Nat × VersionsTree :=
  match report.2[path]? with
  | none => report
  | some dir =>
      let (removed, left) := pruneEntries now 0 (entriesNewestFirst (reading.entries path dir)) dir
      (report.1 + removed,
        if left.isEmpty then report.2.erase path else report.2.insert path left)

def pruneVersions (reading : Reading) (now : Nat) (tree : VersionsTree) : Nat × VersionsTree :=
  (reading.dirs tree).foldl (pruneDir reading now) (0, tree)

/-! ## One directory -/

/-- By the second only, as pruning sorts. -/
def newerSecond (left right : String) : Bool :=
  decide (extractTimestamp right ≤ extractTimestamp left)

theorem newerSecond_preorder : TotalPreorder newerSecond where
  trans a b c := by
    simp only [newerSecond, decide_eq_true_eq]
    omega
  total a b := by
    simp only [newerSecond, Bool.or_eq_true, decide_eq_true_eq]
    omega

/-- The listing's order refines the one pruning goes by. -/
theorem newerSecond_of_notOlder {left right : String} (h : notOlder left right = true) :
    newerSecond left right = true := by
  rw [notOlder_iff, OrderLt] at h
  simp only [newerSecond, decide_eq_true_eq]
  simp only [historyOrder] at h
  omega

theorem entriesNewestFirst_eq (names : List String) :
    entriesNewestFirst names =
      (names.mergeSort newerSecond).map fun name => (extractTimestamp name, name) := by
  symm
  apply List.map_mergeSort
  intro left _ right _
  rfl

/-- The names pruning removes, the first of `entries` standing at `index`. -/
def removals (now index : Nat) : List (Nat × String) → List String
  | [] => []
  | (ts, name) :: rest =>
      if index ≥ maxVersionsPerFile ∨ expired now ts = true then
        name :: removals now (index + 1) rest
      else removals now (index + 1) rest

theorem pruneEntries_eq (now index : Nat) (entries : List (Nat × String)) (dir : HistoryDir) :
    pruneEntries now index entries dir =
      ((removals now index entries).length,
        (removals now index entries).foldl Std.ExtTreeMap.erase dir) := by
  induction entries generalizing index dir with
  | nil => rfl
  | cons entry rest ih =>
      rw [pruneEntries.eq_def, removals.eq_def]
      simp only
      split
      next => simp [ih]
      next => exact ih _ _

theorem getElem?_foldl_erase (names : List String) (dir : HistoryDir) (name : String) :
    (names.foldl Std.ExtTreeMap.erase dir)[name]? = if name ∈ names then none else dir[name]? := by
  induction names generalizing dir with
  | nil => simp
  | cons head rest ih =>
      rw [List.foldl_cons, ih]
      by_cases hrest : name ∈ rest
      · simp [hrest]
      · by_cases hhead : name = head
        · simp [hhead]
        · rw [Std.ExtTreeMap.getElem?_erase_of_ne dir (Ne.symm hhead)]
          simp [hrest, hhead]

theorem mem_removals {now index : Nat} {entries : List (Nat × String)} {name : String} :
    name ∈ removals now index entries ↔
      (∃ entry ∈ entries, entry.2 = name ∧ expired now entry.1 = true) ∨
        ∃ entry ∈ entries.drop (maxVersionsPerFile - index), entry.2 = name := by
  induction entries generalizing index with
  | nil => simp [removals]
  | cons entry rest ih =>
      obtain ⟨ts, found⟩ := entry
      rw [removals.eq_def]
      by_cases hlate : index ≥ maxVersionsPerFile
      · have hzero : maxVersionsPerFile - index = 0 := by omega
        have hnext : maxVersionsPerFile - (index + 1) = 0 := by omega
        simp only [hlate, true_or, if_true, List.mem_cons, ih, hnext, hzero, List.drop_zero,
          exists_eq_or_imp]
        constructor
        · rintro (hname | hmem | hmem)
          · exact Or.inr (Or.inl hname.symm)
          · exact Or.inl (Or.inr hmem)
          · exact Or.inr (Or.inr hmem)
        · rintro ((⟨hname, hexpired⟩ | hmem) | hname | hmem)
          · exact Or.inl hname.symm
          · exact Or.inr (Or.inl hmem)
          · exact Or.inl hname.symm
          · exact Or.inr (Or.inr hmem)
      · have hstep : maxVersionsPerFile - index = maxVersionsPerFile - (index + 1) + 1 := by omega
        simp only [hlate, false_or, hstep, List.drop_succ_cons, List.mem_cons, exists_eq_or_imp]
        split
        next hexpired =>
          rw [List.mem_cons, ih]
          simp only [hexpired, and_true, or_assoc, eq_comm (a := name)]
        next hfresh =>
          rw [ih]
          simp only [hfresh, and_false, false_or, Bool.false_eq_true]

/-- An entry stays if it is among the first ten in the order of pruning and
within the retention period. -/
theorem mem_removals_newestFirst {now : Nat} {names : List String} (hnodup : names.Nodup)
    {name : String} (hname : name ∈ names) :
    name ∈ removals now 0 (entriesNewestFirst names) ↔
      ¬ (name ∈ (names.mergeSort newerSecond).take maxVersionsPerFile ∧
        expired now (extractTimestamp name) = false) := by
  have hsorted : (names.mergeSort newerSecond).Nodup :=
    (List.mergeSort_perm names newerSecond).nodup_iff.mpr hnodup
  have hmem : name ∈ names.mergeSort newerSecond := List.mem_mergeSort.mpr hname
  have hsplit : name ∈ (names.mergeSort newerSecond).drop maxVersionsPerFile ↔
      name ∉ (names.mergeSort newerSecond).take maxVersionsPerFile := by
    constructor
    · intro hdrop htake
      rw [← List.take_append_drop maxVersionsPerFile (names.mergeSort newerSecond)] at hsorted
      exact (List.nodup_append.mp hsorted).2.2 name htake name hdrop rfl
    · exact StableSort.mem_drop_of_not_mem_take hmem
  rw [mem_removals, entriesNewestFirst_eq, ← List.map_drop]
  simp only [List.mem_map, exists_exists_and_eq_and, Nat.sub_zero, exists_eq_right, hsplit]
  rw [not_and_or, Bool.not_eq_false, or_comm]
  refine or_congr Iff.rfl ?_
  constructor
  · rintro ⟨other, _, rfl, hexpired⟩
    exact hexpired
  · intro hexpired
    exact ⟨name, hmem, rfl, hexpired⟩

/-- No entry outside the first ten of the listing is read before an entry of its
own second that is inside, unless both are past the retention period. -/
def ReadInStep (now : Nat) (names : List String) : Prop :=
  ∀ first second, [first, second].Sublist names →
    extractTimestamp first = extractTimestamp second →
    expired now (extractTimestamp first) = false →
    second ∈ (listHistoryFrom names).take maxVersionsPerFile →
    first ∈ (listHistoryFrom names).take maxVersionsPerFile

/-- What a directory keeps is what the listing shows first, exactly when it is
read in step with the listing. -/
theorem kept_iff_readInStep {now : Nat} {names : List String} (hnodup : names.Nodup) :
    (∀ name ∈ names, name ∈ removals now 0 (entriesNewestFirst names) ↔
      ¬ (name ∈ (listHistoryFrom names).take maxVersionsPerFile ∧
        expired now (extractTimestamp name) = false)) ↔ ReadInStep now names := by
  have hkeep : ∀ name ∈ names, expired now (extractTimestamp name) = false →
      ((name ∈ removals now 0 (entriesNewestFirst names) ↔
        ¬ (name ∈ (listHistoryFrom names).take maxVersionsPerFile ∧
          expired now (extractTimestamp name) = false)) ↔
        (name ∈ (names.mergeSort newerSecond).take maxVersionsPerFile ↔
          name ∈ (listHistoryFrom names).take maxVersionsPerFile)) := by
    intro name hname hfresh
    rw [mem_removals_newestFirst hnodup hname, hfresh]
    simp [not_iff_not]
  constructor
  · intro hkept first second hread hsame hfresh hsecond
    have hmem : ∀ name ∈ [first, second], name ∈ names := fun name hname => hread.subset hname
    have hagree :=
      (hkeep first (hmem first (by simp)) hfresh).mp (hkept first (hmem first (by simp)))
    have hagree' := (hkeep second (hmem second (by simp)) (hsame ▸ hfresh)).mp
      (hkept second (hmem second (by simp)))
    apply hagree.mp
    have htie : newerSecond first second = true := by simp [newerSecond, hsame]
    exact newerSecond_preorder.mem_take_of_tie hnodup hread htie (hagree'.mpr hsecond)
  · intro hstep name hname
    by_cases hexpired : expired now (extractTimestamp name) = true
    · rw [mem_removals_newestFirst hnodup hname, hexpired]
      simp
    · rw [Bool.not_eq_true] at hexpired
      rw [hkeep name hname hexpired]
      -- where the two orders differ, a pair of one second is read out of step
      have hmismatch : ∀ x y, x ∈ (names.mergeSort newerSecond).take maxVersionsPerFile →
          x ∉ (listHistoryFrom names).take maxVersionsPerFile →
          y ∈ (listHistoryFrom names).take maxVersionsPerFile →
          y ∉ (names.mergeSort newerSecond).take maxVersionsPerFile →
          extractTimestamp x = extractTimestamp y ∧ expired now (extractTimestamp x) = true := by
        intro x y hx hxnot hy hynot
        obtain ⟨hxy, hyx, hread⟩ := StableSort.tie_of_mismatch newerSecond_preorder
          notOlder_preorder (fun _ _ => newerSecond_of_notOlder) hnodup hx hxnot hy hynot
        simp only [newerSecond, decide_eq_true_eq] at hxy hyx
        have hsame : extractTimestamp x = extractTimestamp y := by omega
        refine ⟨hsame, ?_⟩
        by_contra hfresh
        exact hxnot (hstep x y hread hsame (by simpa using hfresh) hy)
      constructor
      · intro hx
        by_contra hxnot
        obtain ⟨y, hy, hynot⟩ := StableSort.exists_mismatch newerSecond notOlder hnodup hx hxnot
        have hboth := hmismatch name y hx hxnot hy hynot
        rw [hexpired] at hboth
        exact absurd hboth.2 (by simp)
      · intro hy
        by_contra hynot
        obtain ⟨x, hx, hxnot⟩ := StableSort.exists_mismatch notOlder newerSecond hnodup hy hynot
        have hboth := hmismatch x name hx hxnot hy hynot
        rw [hboth.1, hexpired] at hboth
        exact absurd hboth.2 (by simp)

/-! ## The tree -/

/-- What a directory comes to. -/
def prunedDir (reading : Reading) (now : Nat) (path : String) (dir : HistoryDir) : HistoryDir :=
  (removals now 0 (entriesNewestFirst (reading.entries path dir))).foldl Std.ExtTreeMap.erase dir

theorem Reading.nodup_entries (reading : Reading) (path : String) (dir : HistoryDir) :
    (reading.entries path dir).Nodup :=
  (reading.entries_perm path dir).nodup_iff.mpr Std.ExtTreeMap.nodup_keys

theorem Reading.mem_entries (reading : Reading) (path : String) {dir : HistoryDir} {name : String} :
    name ∈ reading.entries path dir ↔ name ∈ dir := by
  rw [(reading.entries_perm path dir).mem_iff, Std.ExtTreeMap.mem_keys]

theorem pruneDir_tree (reading : Reading) (now : Nat) (report : Nat × VersionsTree) (path : String)
    (other : String) :
    (pruneDir reading now report path).2[other]? =
      if other = path then
        (report.2[path]?.map (prunedDir reading now path)).filter fun dir => !dir.isEmpty
      else report.2[other]? := by
  unfold pruneDir
  split
  next hnone =>
    split
    next hsame => simp [hsame, hnone]
    next => rfl
  next dir hdir =>
    rw [pruneEntries_eq]
    change (if (prunedDir reading now path dir).isEmpty then report.2.erase path
      else report.2.insert path (prunedDir reading now path dir))[other]? = _
    by_cases hsame : other = path
    · rw [if_pos hsame, hsame, hdir]
      split
      next hempty => simp [Option.filter, hempty]
      next hfull => simp [Option.filter, hfull]
    · rw [if_neg hsame]
      split
      next => exact Std.ExtTreeMap.getElem?_erase_of_ne _ (Ne.symm hsame)
      next => exact Std.ExtTreeMap.getElem?_insert_of_ne _ _ (Ne.symm hsame)

theorem foldl_pruneDir_tree (reading : Reading) (now : Nat) {paths : List String}
    (hnodup : paths.Nodup) (report : Nat × VersionsTree) (path : String) :
    (paths.foldl (pruneDir reading now) report).2[path]? =
      if path ∈ paths then
        (report.2[path]?.map (prunedDir reading now path)).filter fun dir => !dir.isEmpty
      else report.2[path]? := by
  induction paths generalizing report with
  | nil => simp
  | cons head rest ih =>
      obtain ⟨hnot, hrest⟩ := List.nodup_cons.mp hnodup
      rw [List.foldl_cons, ih hrest, pruneDir_tree]
      by_cases hsame : path = head
      · subst hsame
        simp [hnot]
      · simp [hsame]

/-- After a pass every directory is what pruning makes of it; an empty one is gone. -/
theorem pruneVersions_tree (reading : Reading) (now : Nat) (tree : VersionsTree) (path : String) :
    (pruneVersions reading now tree).2[path]? =
      (tree[path]?.map (prunedDir reading now path)).filter fun dir => !dir.isEmpty := by
  have hnodup : (reading.dirs tree).Nodup :=
    (reading.dirs_perm tree).nodup_iff.mpr Std.ExtTreeMap.nodup_keys
  rw [pruneVersions, foldl_pruneDir_tree reading now hnodup]
  split
  next => rfl
  next hnot =>
    rw [(reading.dirs_perm tree).mem_iff, Std.ExtTreeMap.mem_keys] at hnot
    simp [Std.ExtTreeMap.getElem?_eq_none hnot]

/-- A pass over directories that have nothing to remove. -/
theorem foldl_pruneDir_idle (reading : Reading) (now : Nat) (paths : List String)
    {tree : VersionsTree}
    (hidle : ∀ (path : String) (dir : HistoryDir), tree[path]? = some dir →
      removals now 0 (entriesNewestFirst (reading.entries path dir)) = [] ∧ dir.isEmpty = false) :
    paths.foldl (pruneDir reading now) (0, tree) = (0, tree) := by
  induction paths with
  | nil => rfl
  | cons path rest ih =>
      have hhead : pruneDir reading now (0, tree) path = (0, tree) := by
        unfold pruneDir
        split
        next => rfl
        next dir hdir =>
          obtain ⟨hnone, hfull⟩ := hidle path dir hdir
          rw [pruneEntries_eq, hnone]
          simp only [List.length_nil, List.foldl_nil, hfull, Nat.add_zero,
            Bool.false_eq_true, if_false]
          refine Prod.ext rfl ?_
          apply Std.ExtTreeMap.ext_getElem?
          intro other
          by_cases hsame : other = path
          · simp [hsame, hdir]
          · exact Std.ExtTreeMap.getElem?_insert_of_ne _ _ (Ne.symm hsame)
      rw [List.foldl_cons, hhead, ih]

theorem prunedDir_getElem? (reading : Reading) (now : Nat) (path : String) (dir : HistoryDir)
    (name : String) :
    (prunedDir reading now path dir)[name]? =
      if name ∈ removals now 0 (entriesNewestFirst (reading.entries path dir)) then none
      else dir[name]? :=
  getElem?_foldl_erase _ dir name

theorem prunedDir_kept {reading : Reading} {now : Nat} {path : String} {dir : HistoryDir}
    {name : String} (hname : name ∈ prunedDir reading now path dir) :
    name ∈ dir ∧
      name ∈ ((reading.entries path dir).mergeSort newerSecond).take maxVersionsPerFile ∧
      expired now (extractTimestamp name) = false := by
  rw [Std.ExtTreeMap.mem_iff_isSome_getElem?, prunedDir_getElem?] at hname
  split at hname
  next => cases hname
  next hstays =>
    rw [← Std.ExtTreeMap.mem_iff_isSome_getElem?] at hname
    have hmem := (reading.mem_entries path).mpr hname
    rw [mem_removals_newestFirst (reading.nodup_entries path dir) hmem, not_not] at hstays
    exact ⟨hname, hstays⟩

/-- What one pass leaves, no pass at the same time takes. -/
theorem removals_prunedDir (reading again : Reading) (now : Nat) (path : String)
    (dir : HistoryDir) :
    removals now 0
      (entriesNewestFirst (again.entries path (prunedDir reading now path dir))) = [] := by
  have hfew : (again.entries path (prunedDir reading now path dir)).length ≤
      maxVersionsPerFile := by
    have hsub : (prunedDir reading now path dir).keys ⊆
        ((reading.entries path dir).mergeSort newerSecond).take maxVersionsPerFile := by
      intro name hname
      exact (prunedDir_kept (Std.ExtTreeMap.mem_keys.mp hname)).2.1
    have hsubperm := List.subperm_of_subset Std.ExtTreeMap.nodup_keys hsub
    rw [(again.entries_perm path _).length_eq]
    exact hsubperm.length_le.trans (List.length_take_le _ _)
  apply List.eq_nil_iff_forall_not_mem.mpr
  intro name hremoved
  have hname : name ∈ again.entries path (prunedDir reading now path dir) := by
    rw [mem_removals, entriesNewestFirst_eq] at hremoved
    rcases hremoved with ⟨entry, hentry, rfl, _⟩ | ⟨entry, hentry, rfl⟩
    · obtain ⟨found, hfound, rfl⟩ := List.mem_map.mp hentry
      exact List.mem_mergeSort.mp hfound
    · obtain ⟨found, hfound, rfl⟩ := List.mem_map.mp (List.mem_of_mem_drop hentry)
      exact List.mem_mergeSort.mp hfound
  have hkept := prunedDir_kept ((again.mem_entries path).mp hname)
  apply (mem_removals_newestFirst (again.nodup_entries path _) hname).mp hremoved
  refine ⟨?_, hkept.2.2⟩
  rw [List.take_of_length_le (by simpa using hfew)]
  exact List.mem_mergeSort.mpr hname

/-- Run again at the same time, in any order, pruning removes nothing. -/
theorem pruneVersions_again (reading again : Reading) (now : Nat) (tree : VersionsTree) :
    pruneVersions again now (pruneVersions reading now tree).2 =
      (0, (pruneVersions reading now tree).2) := by
  apply foldl_pruneDir_idle
  intro path left hleft
  rw [pruneVersions_tree, Option.filter_eq_some_iff, Option.map_eq_some_iff] at hleft
  obtain ⟨⟨dir, _, rfl⟩, hfull⟩ := hleft
  exact ⟨removals_prunedDir reading again now path dir, by simpa using hfull⟩

/-- One entry of the tree. -/
def versionAt (tree : VersionsTree) (path name : String) : Option Bytes :=
  tree[path]?.bind fun dir => dir[name]?

theorem versionAt_pruneVersions {reading : Reading} {now : Nat} {tree : VersionsTree}
    {path : String} {dir : HistoryDir} (hdir : tree[path]? = some dir) (name : String) :
    versionAt (pruneVersions reading now tree).2 path name =
      if name ∈ removals now 0 (entriesNewestFirst (reading.entries path dir)) then none
      else dir[name]? := by
  rw [← prunedDir_getElem?, versionAt, pruneVersions_tree, hdir, Option.map_some]
  cases hempty : (prunedDir reading now path dir).isEmpty with
  | true =>
      rw [Std.ExtTreeMap.isEmpty_iff.mp hempty]
      simp [Option.filter]
  | false => simp [Option.filter, hempty]

/-- A pass leaves of each file's history the entries within the retention period
that are among the first ten of the listing, adds nothing, and leaves a second
pass nothing to remove. -/
structure KeepsNewest (reading : Reading) (now : Nat) (tree : VersionsTree) : Prop where
  kept : ∀ (path : String) (dir : HistoryDir), tree[path]? = some dir → ∀ name : String,
    versionAt (pruneVersions reading now tree).2 path name =
      if name ∈ (listHistoryFrom (reading.entries path dir)).take maxVersionsPerFile ∧
          expired now (extractTimestamp name) = false then
        dir[name]?
      else none
  elsewhere : ∀ path : String, tree[path]? = none → (pruneVersions reading now tree).2[path]? = none
  again : ∀ again : Reading, pruneVersions again now (pruneVersions reading now tree).2 =
    (0, (pruneVersions reading now tree).2)

/-- Pruning goes by the second alone. It keeps what the listing shows first
exactly when each directory happens to be read in step with the listing. -/
theorem pruning_keeps_newest_iff (reading : Reading) (now : Nat) (tree : VersionsTree) :
    KeepsNewest reading now tree ↔
      ∀ (path : String) (dir : HistoryDir), tree[path]? = some dir →
        ReadInStep now (reading.entries path dir) := by
  have hkept : ∀ (path : String) (dir : HistoryDir), tree[path]? = some dir →
      ((∀ name : String, versionAt (pruneVersions reading now tree).2 path name =
        if name ∈ (listHistoryFrom (reading.entries path dir)).take maxVersionsPerFile ∧
            expired now (extractTimestamp name) = false then
          dir[name]?
        else none) ↔ ReadInStep now (reading.entries path dir)) := by
    intro path dir hdir
    rw [← kept_iff_readInStep (reading.nodup_entries path dir)]
    have hentry : ∀ name ∈ reading.entries path dir,
        (versionAt (pruneVersions reading now tree).2 path name =
          if name ∈ (listHistoryFrom (reading.entries path dir)).take maxVersionsPerFile ∧
              expired now (extractTimestamp name) = false then
            dir[name]?
          else none) ↔
        (name ∈ removals now 0 (entriesNewestFirst (reading.entries path dir)) ↔
          ¬ (name ∈ (listHistoryFrom (reading.entries path dir)).take maxVersionsPerFile ∧
            expired now (extractTimestamp name) = false)) := by
      intro name hname
      rw [reading.mem_entries, Std.ExtTreeMap.mem_iff_isSome_getElem?] at hname
      obtain ⟨blob, hblob⟩ := Option.isSome_iff_exists.mp hname
      rw [versionAt_pruneVersions hdir, hblob]
      by_cases hremoved : name ∈ removals now 0 (entriesNewestFirst (reading.entries path dir))
      · simp [hremoved]
      · simp [hremoved, imp_iff_not_or]
    constructor
    · intro hall name hname
      exact (hentry name hname).mp (hall name)
    · intro hall name
      by_cases hname : name ∈ reading.entries path dir
      · exact (hentry name hname).mpr (hall name hname)
      · rw [reading.mem_entries] at hname
        simp [versionAt_pruneVersions hdir, Std.ExtTreeMap.getElem?_eq_none hname]
  constructor
  · intro hkeeps path dir hdir
    exact (hkept path dir hdir).mp (hkeeps.kept path dir hdir)
  · intro hstep
    refine ⟨fun path dir hdir => (hkept path dir hdir).mpr (hstep path dir hdir), ?_, ?_⟩
    · intro path hnone
      simp [pruneVersions_tree, hnone]
    · exact fun again => pruneVersions_again reading again now tree

/-! Eleven versions of one second, read in the order of their names: the listing
starts with the last, pruning takes the last read. -/

/-- Directories are read in the order of the names in them. -/
def byName : Reading where
  dirs := Std.ExtTreeMap.keys
  entries _ := Std.ExtTreeMap.keys
  dirs_perm _ := List.Perm.refl _
  entries_perm _ _ := List.Perm.refl _

def busyDir : HistoryDir :=
  ((List.range 11).map (Text.suffixed 100)).foldl (fun dir name => dir.insert name []) ∅

def busyTree : VersionsTree := (∅ : VersionsTree).insert "vault/note" busyDir

theorem busy_listing : listHistoryFrom (byName.entries "vault/note" busyDir) =
    ((List.range 11).map (Text.suffixed 100)).reverse := by
  apply listHistoryFrom_eq
  · decide +kernel
  · decide +kernel

theorem busy_second_loses_newer_version : ¬ KeepsNewest byName 100 busyTree := by
  rw [pruning_keeps_newest_iff]
  intro hstep
  have hbusy := hstep "vault/note" busyDir (by simp [busyTree]) "100" "100-9" (by decide +kernel)
    (by decide +kernel) (by decide +kernel)
  rw [busy_listing] at hbusy
  exact absurd (hbusy (by decide +kernel)) (by decide +kernel)

end ObSink.Server
