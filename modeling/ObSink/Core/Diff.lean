import ObSink.Manifest

/-! # The diff as a decision

What holds of `diffManifests` for all three manifests together: every path is
listed at most once, the two sides can be exchanged, only versions decide, and
carrying the plan out leaves nothing but the conflicts.
-/

namespace ObSink

/-! ## The other side's view -/

def SyncActionKind.mirror : SyncActionKind → SyncActionKind
  | .upload => .download
  | .download => .upload
  | .deleteLocal => .deleteRemote
  | .deleteRemote => .deleteLocal

def SyncAction.mirror (action : SyncAction) : SyncAction where
  path := action.path
  kind := action.kind.mirror
  localEntry := action.remoteEntry
  remoteEntry := action.localEntry

def Conflict.mirror (conflict : Conflict) : Conflict where
  path := conflict.path
  localEntry := conflict.remoteEntry
  remoteEntry := conflict.localEntry

/-- The same diff with the two sides exchanged. -/
def ManifestDiff.mirror (diff : ManifestDiff) : ManifestDiff where
  upload := diff.download.map SyncAction.mirror
  download := diff.upload.map SyncAction.mirror
  conflicts := diff.conflicts.map Conflict.mirror

def Decision.mirror : Decision → Decision
  | .nothing => .nothing
  | .upload action => .download action.mirror
  | .download action => .upload action.mirror
  | .conflict found => .conflict found.mirror

theorem Decision.upload?_mirror (decision : Decision) :
    decision.mirror.upload? = decision.download?.map SyncAction.mirror := by
  cases decision <;> rfl

theorem Decision.download?_mirror (decision : Decision) :
    decision.mirror.download? = decision.upload?.map SyncAction.mirror := by
  cases decision <;> rfl

theorem Decision.conflict?_mirror (decision : Decision) :
    decision.mirror.conflict? = decision.conflict?.map Conflict.mirror := by
  cases decision <;> rfl

theorem decide3_swap (path : String) (base localEntry remoteEntry : Option FileEntry) :
    decide3 path base remoteEntry localEntry =
      (decide3 path base localEntry remoteEntry).mirror := by
  unfold decide3
  by_cases hlocal : version localEntry = version base
  · by_cases hremote : version remoteEntry = version base
    · simp [hlocal, hremote, Decision.mirror]
    · simp only [hlocal, hremote, ne_eq, not_true_eq_false, decide_false, not_false_eq_true,
        decide_true, Decision.mirror, SyncAction.mirror]
      cases version remoteEntry <;> rfl
  · by_cases hremote : version remoteEntry = version base
    · simp only [hlocal, hremote, ne_eq, not_true_eq_false, decide_false, not_false_eq_true,
        decide_true, Decision.mirror, SyncAction.mirror]
      cases version localEntry <;> rfl
    · by_cases hsame : version localEntry = version remoteEntry
      · simp [hremote, hsame, Decision.mirror]
      · simp [hlocal, hremote, hsame, Ne.symm hsame, Decision.mirror, Conflict.mirror]

/-- The listed paths only depend on which paths there are. -/
theorem diffPaths_congr {base localSide remoteSide base' localSide' remoteSide' : Manifest}
    (hsame : ∀ path, path ∈ diffPaths base localSide remoteSide ↔
      path ∈ diffPaths base' localSide' remoteSide') :
    diffPaths base localSide remoteSide = diffPaths base' localSide' remoteSide' := by
  unfold diffPaths
  congr 1
  apply Std.ExtTreeSet.ext_mem
  intro path
  simpa [diffPaths] using hsame path

theorem diffManifests_swap (base localSide remoteSide : Manifest) :
    diffManifests base remoteSide localSide =
      (diffManifests base localSide remoteSide).mirror := by
  have hpaths : diffPaths base remoteSide localSide = diffPaths base localSide remoteSide := by
    apply diffPaths_congr
    intro path
    rw [mem_diffPaths, mem_diffPaths]
    tauto
  have hdecision : decisionAt base remoteSide localSide =
      Decision.mirror ∘ decisionAt base localSide remoteSide := by
    funext path
    exact decide3_swap path _ _ _
  simp only [diffManifests, ManifestDiff.mirror, hpaths, hdecision, ManifestDiff.mk.injEq,
    List.filterMap_map, List.map_filterMap]
  refine ⟨?_, ?_, ?_⟩
  · apply List.filterMap_congr
    intro path _
    exact Decision.upload?_mirror _
  · apply List.filterMap_congr
    intro path _
    exact Decision.download?_mirror _
  · apply List.filterMap_congr
    intro path _
    exact Decision.conflict?_mirror _

/-! ## Every path once -/

/-- The paths of all the lists of a diff. -/
def ManifestDiff.paths (diff : ManifestDiff) : List String :=
  diff.upload.map SyncAction.path ++ diff.download.map SyncAction.path ++
    diff.conflicts.map Conflict.path

section Lists

variable {base localSide remoteSide : Manifest} {path : String}

theorem mem_upload_paths :
    path ∈ (diffManifests base localSide remoteSide).upload.map SyncAction.path ↔
      ∃ action, decisionAt base localSide remoteSide path = .upload action := by
  rw [List.mem_map]
  constructor
  · rintro ⟨action, hmem, rfl⟩
    exact ⟨action, mem_diff_upload.mp hmem⟩
  · rintro ⟨action, hdecision⟩
    obtain rfl := decide3_upload_path hdecision
    exact ⟨action, mem_diff_upload.mpr hdecision, rfl⟩

theorem mem_download_paths :
    path ∈ (diffManifests base localSide remoteSide).download.map SyncAction.path ↔
      ∃ action, decisionAt base localSide remoteSide path = .download action := by
  rw [List.mem_map]
  constructor
  · rintro ⟨action, hmem, rfl⟩
    exact ⟨action, mem_diff_download.mp hmem⟩
  · rintro ⟨action, hdecision⟩
    exact List.mem_map.mp (path_mem_diff_download hdecision)

theorem mem_conflict_paths :
    path ∈ (diffManifests base localSide remoteSide).conflicts.map Conflict.path ↔
      ∃ conflict, decisionAt base localSide remoteSide path = .conflict conflict := by
  rw [List.mem_map]
  constructor
  · rintro ⟨conflict, hmem, rfl⟩
    exact ⟨conflict, mem_diff_conflicts.mp hmem⟩
  · rintro ⟨conflict, hdecision⟩
    exact List.mem_map.mp (path_mem_diff_conflicts hdecision)

end Lists

theorem nodup_diff_paths (base localSide remoteSide : Manifest) :
    (diffManifests base localSide remoteSide).paths.Nodup := by
  unfold ManifestDiff.paths
  refine List.Nodup.append (List.Nodup.append (nodup_diff_upload _ _ _) (nodup_diff_download _ _ _)
    ?_) (nodup_diff_conflicts _ _ _) ?_
  · intro path hupload hdownload
    obtain ⟨up, hup⟩ := mem_upload_paths.mp hupload
    obtain ⟨down, hdown⟩ := mem_download_paths.mp hdownload
    rw [hup] at hdown
    cases hdown
  · intro path htransfer hconflict
    obtain ⟨conflict, hdecision⟩ := mem_conflict_paths.mp hconflict
    rcases List.mem_append.mp htransfer with hupload | hdownload
    · obtain ⟨up, hup⟩ := mem_upload_paths.mp hupload
      rw [hup] at hdecision
      cases hdecision
    · obtain ⟨down, hdown⟩ := mem_download_paths.mp hdownload
      rw [hdown] at hdecision
      cases hdecision

/-! ## Only versions decide -/

/-- An entry without its time, size and encrypted path. -/
def FileEntry.content (entry : FileEntry) : String × Bool := (entry.hash, entry.deleted)

/-- The manifests differ in nothing but times, sizes and encrypted paths. -/
def SameContent (manifest manifest' : Manifest) : Prop :=
  ∀ path : String, manifest[path]?.map FileEntry.content = manifest'[path]?.map FileEntry.content

/-- Which path is in which list, and as what. -/
structure DiffShape where
  upload : List (String × SyncActionKind)
  download : List (String × SyncActionKind)
  conflicts : List String
  deriving DecidableEq, Repr

def ManifestDiff.shape (diff : ManifestDiff) : DiffShape where
  upload := diff.upload.map fun action => (action.path, action.kind)
  download := diff.download.map fun action => (action.path, action.kind)
  conflicts := diff.conflicts.map Conflict.path

theorem SameContent.version {manifest manifest' : Manifest} (hsame : SameContent manifest manifest')
    (path : String) : ObSink.version manifest[path]? = ObSink.version manifest'[path]? := by
  have hpath := hsame path
  cases hleft : manifest[path]? with
  | none =>
      cases hright : manifest'[path]? with
      | none => rfl
      | some entry => simp [hleft, hright] at hpath
  | some entry =>
      cases hright : manifest'[path]? with
      | none => simp [hleft, hright] at hpath
      | some entry' =>
          simp only [hleft, hright, Option.map_some, Option.some.injEq, FileEntry.content,
            Prod.mk.injEq] at hpath
          simp [ObSink.version, hpath.1, hpath.2]

theorem SameContent.mem {manifest manifest' : Manifest} (hsame : SameContent manifest manifest')
    (path : String) : path ∈ manifest ↔ path ∈ manifest' := by
  have hpath := congrArg Option.isSome (hsame path)
  rw [Std.ExtTreeMap.mem_iff_isSome_getElem?, Std.ExtTreeMap.mem_iff_isSome_getElem?]
  simpa only [Option.isSome_map, Bool.coe_iff_coe] using hpath

/-- What a decision lists, under which kind. -/
def Decision.shape :
    Decision →
      Option (String × SyncActionKind) × Option (String × SyncActionKind) × Option String
  | .nothing => (none, none, none)
  | .upload action => (some (action.path, action.kind), none, none)
  | .download action => (none, some (action.path, action.kind), none)
  | .conflict found => (none, none, some found.path)

theorem decide3_shape (path : String)
    {base base' localEntry localEntry' remoteEntry remoteEntry' : Option FileEntry}
    (hbase : version base = version base') (hlocal : version localEntry = version localEntry')
    (hremote : version remoteEntry = version remoteEntry') :
    (decide3 path base localEntry remoteEntry).shape =
      (decide3 path base' localEntry' remoteEntry').shape := by
  rw [decide3_eq, decide3_eq, hbase, hlocal, hremote]
  split
  · rfl
  · split
    · rfl
    · split <;> rfl

theorem ManifestDiff.shape_eq (base localSide remoteSide : Manifest) :
    (diffManifests base localSide remoteSide).shape =
      { upload := (diffPaths base localSide remoteSide).filterMap fun path =>
          (decisionAt base localSide remoteSide path).shape.1
        download := (diffPaths base localSide remoteSide).filterMap fun path =>
          (decisionAt base localSide remoteSide path).shape.2.1
        conflicts := (diffPaths base localSide remoteSide).filterMap fun path =>
          (decisionAt base localSide remoteSide path).shape.2.2 } := by
  simp only [diffManifests, ManifestDiff.shape, DiffShape.mk.injEq, List.filterMap_map,
    List.map_filterMap]
  refine ⟨?_, ?_, ?_⟩ <;>
  · apply List.filterMap_congr
    intro path _
    simp only [Function.comp_apply]
    cases decisionAt base localSide remoteSide path <;> rfl

theorem shape_of_sameContent {base base' localSide localSide' remoteSide remoteSide' : Manifest}
    (hbase : SameContent base base') (hlocal : SameContent localSide localSide')
    (hremote : SameContent remoteSide remoteSide') :
    (diffManifests base localSide remoteSide).shape =
      (diffManifests base' localSide' remoteSide').shape := by
  have hpaths : diffPaths base localSide remoteSide = diffPaths base' localSide' remoteSide' := by
    apply diffPaths_congr
    intro path
    rw [mem_diffPaths, mem_diffPaths, hbase.mem path, hlocal.mem path, hremote.mem path]
  have hshape : ∀ path, (decisionAt base localSide remoteSide path).shape =
      (decisionAt base' localSide' remoteSide' path).shape := fun path =>
    decide3_shape path (hbase.version path) (hlocal.version path) (hremote.version path)
  rw [ManifestDiff.shape_eq, ManifestDiff.shape_eq, hpaths]
  simp only [hshape]

/-! ## Carrying the plan out -/

/-- The planned versions are on the side they were meant for, and the rest of
that side is as it was. -/
def Copied (actions : List SyncAction) (source : SyncAction → Option FileEntry)
    (before after : Manifest) : Prop :=
  (∀ action ∈ actions, version after[action.path]? = version (source action)) ∧
    ∀ path : String, path ∉ actions.map SyncAction.path → after[path]? = before[path]?

/-- The planned entries put in place one by one, tombstones included. -/
def copyPlanned (source : SyncAction → Option FileEntry) (actions : List SyncAction)
    (before : Manifest) : Manifest :=
  actions.foldl (fun side action =>
    match source action with
    | some entry => side.insert action.path entry
    | none => side.erase action.path) before

/-- The version of the side that had changed. -/
def changedVersion (base localEntry remoteEntry : Option FileEntry) : Version :=
  if version localEntry ≠ version base then version localEntry else version remoteEntry

theorem copyPlanned_getElem?_of_not_mem (source : SyncAction → Option FileEntry)
    {actions : List SyncAction} (before : Manifest) {path : String}
    (hnot : path ∉ actions.map SyncAction.path) :
    (copyPlanned source actions before)[path]? = before[path]? := by
  unfold copyPlanned
  induction actions generalizing before with
  | nil => rfl
  | cons action rest ih =>
      simp only [List.map_cons, List.mem_cons, not_or] at hnot
      rw [List.foldl_cons, ih _ hnot.2]
      split
      next entry _ => exact Std.ExtTreeMap.getElem?_insert_of_ne _ entry (Ne.symm hnot.1)
      next => exact Std.ExtTreeMap.getElem?_erase_of_ne _ (Ne.symm hnot.1)

/-- Putting the planned entries in place is a way to carry the plan out. -/
theorem copied_copyPlanned (source : SyncAction → Option FileEntry) {actions : List SyncAction}
    (before : Manifest) (hnodup : (actions.map SyncAction.path).Nodup) :
    Copied actions source before (copyPlanned source actions before) := by
  refine ⟨?_, fun path hnot => copyPlanned_getElem?_of_not_mem source before hnot⟩
  unfold copyPlanned
  induction actions generalizing before with
  | nil =>
      intro action hmem
      cases hmem
  | cons action rest ih =>
      simp only [List.map_cons, List.nodup_cons] at hnodup
      intro planned hmem
      rcases List.mem_cons.mp hmem with rfl | hrest
      · have hlater := copyPlanned_getElem?_of_not_mem source
          (copyPlanned source [planned] before) hnodup.1
        unfold copyPlanned at hlater
        rw [List.foldl_cons]
        rw [List.foldl_cons, List.foldl_nil] at hlater
        rw [hlater]
        cases source planned with
        | none => simp
        | some entry => simp
      · rw [List.foldl_cons]
        exact ih _ hnodup.2 planned hrest

theorem version_localOrTombstone (entry base : Option FileEntry) :
    version (some (localOrTombstone entry base)) = version entry := by
  cases entry with
  | none => rfl
  | some entry => rfl

section Settled

variable {base localSide remoteSide : Manifest} {localSide' remoteSide' : Manifest}

theorem Copied.uploaded
    (hup : Copied (diffManifests base localSide remoteSide).upload SyncAction.localEntry
      remoteSide remoteSide') {path : String} {action : SyncAction}
    (hdecision : decisionAt base localSide remoteSide path = .upload action) :
    version remoteSide'[path]? = version action.localEntry := by
  obtain rfl := decide3_upload_path hdecision
  exact hup.1 action (mem_diff_upload.mpr hdecision)

theorem Copied.downloaded
    (hdown : Copied (diffManifests base localSide remoteSide).download SyncAction.remoteEntry
      localSide localSide') {path : String} {action : SyncAction}
    (hdecision : decisionAt base localSide remoteSide path = .download action) :
    version localSide'[path]? = version action.remoteEntry := by
  obtain rfl := decide3_download_path hdecision
  exact hdown.1 action (mem_diff_download.mpr hdecision)

/-- Where each side stands on a path once the plan is carried out. -/
theorem Copied.sides
    (hup : Copied (diffManifests base localSide remoteSide).upload SyncAction.localEntry
      remoteSide remoteSide')
    (hdown : Copied (diffManifests base localSide remoteSide).download SyncAction.remoteEntry
      localSide localSide') (path : String) :
    (∃ conflict, decisionAt base localSide remoteSide path = .conflict conflict ∧
      localSide'[path]? = localSide[path]? ∧ remoteSide'[path]? = remoteSide[path]?) ∨
    (path ∉ (diffManifests base localSide remoteSide).conflicts.map Conflict.path ∧
      version localSide'[path]? =
        changedVersion base[path]? localSide[path]? remoteSide[path]? ∧
      version remoteSide'[path]? =
        changedVersion base[path]? localSide[path]? remoteSide[path]?) := by
  have hkeptRemote : (∀ action, decisionAt base localSide remoteSide path ≠ .upload action) →
      remoteSide'[path]? = remoteSide[path]? := by
    intro hnone
    apply hup.2
    intro hmem
    obtain ⟨action, hdecision⟩ := mem_upload_paths.mp hmem
    exact hnone action hdecision
  have hkeptLocal : (∀ action, decisionAt base localSide remoteSide path ≠ .download action) →
      localSide'[path]? = localSide[path]? := by
    intro hnone
    apply hdown.2
    intro hmem
    obtain ⟨action, hdecision⟩ := mem_download_paths.mp hmem
    exact hnone action hdecision
  have hconflict : (∀ conflict, decisionAt base localSide remoteSide path ≠ .conflict conflict) →
      path ∉ (diffManifests base localSide remoteSide).conflicts.map Conflict.path := by
    intro hnone hmem
    obtain ⟨conflict, hdecision⟩ := mem_conflict_paths.mp hmem
    exact hnone conflict hdecision
  have hwhole := decide3_eq path base[path]? localSide[path]? remoteSide[path]?
  rw [← decisionAt] at hwhole
  by_cases hsame : version localSide[path]? = version remoteSide[path]?
  · rw [if_pos hsame] at hwhole
    refine Or.inr ⟨hconflict (by simp [hwhole]), ?_, ?_⟩
    · rw [hkeptLocal (by simp [hwhole]), changedVersion]
      split
      · rfl
      · exact hsame
    · rw [hkeptRemote (by simp [hwhole]), changedVersion]
      split
      · exact hsame.symm
      · rfl
  · rw [if_neg hsame] at hwhole
    by_cases hlocal : version localSide[path]? = version base[path]?
    · -- only the remote side changed: the local one follows it
      rw [if_pos hlocal] at hwhole
      refine Or.inr ⟨hconflict (by simp [hwhole]), ?_, ?_⟩
      · rw [hdown.downloaded hwhole, changedVersion, if_neg (not_not_intro hlocal)]
        exact version_localOrTombstone _ _
      · rw [hkeptRemote (by simp [hwhole]), changedVersion, if_neg (not_not_intro hlocal)]
    · rw [if_neg hlocal] at hwhole
      by_cases hremote : version remoteSide[path]? = version base[path]?
      · -- only the local side changed: the remote one follows it
        rw [if_pos hremote] at hwhole
        refine Or.inr ⟨hconflict (by simp [hwhole]), ?_, ?_⟩
        · rw [hkeptLocal (by simp [hwhole]), changedVersion, if_pos hlocal]
        · rw [hup.uploaded hwhole, changedVersion, if_pos hlocal]
          exact version_localOrTombstone _ _
      · -- both changed: a conflict, and neither side moves
        rw [if_neg hremote] at hwhole
        exact Or.inl ⟨_, hwhole, hkeptLocal (by simp [hwhole]), hkeptRemote (by simp [hwhole])⟩

/-- The conflicts of a diff, in order of their paths. -/
theorem conflicts_congr {base base' localSide localSide' remoteSide remoteSide' : Manifest}
    (hsame : ∀ conflict : Conflict,
      decisionAt base localSide remoteSide conflict.path = .conflict conflict ↔
        decisionAt base' localSide' remoteSide' conflict.path = .conflict conflict) :
    (diffManifests base localSide remoteSide).conflicts =
      (diffManifests base' localSide' remoteSide').conflicts := by
  have hsorted : ∀ a b c : Manifest, (diffManifests a b c).conflicts.Pairwise
      fun x y => compare x.path y.path = .lt := by
    intro a b c
    simp only [diffManifests, List.filterMap_map]
    have hpaths : (diffPaths a b c).Pairwise fun x y => compare x y = .lt :=
      Std.ExtTreeSet.ordered_toList
    refine hpaths.filterMap _ ?_
    intro x y hlt first hfirst second hsecond
    rw [decide3_conflict_path (Decision.conflict?_eq_some.mp hfirst),
      decide3_conflict_path (Decision.conflict?_eq_some.mp hsecond)]
    exact hlt
  refine List.Perm.eq_of_pairwise ?_ (hsorted _ _ _) (hsorted _ _ _) ?_
  · intro x y _ _ hlt hgt
    rw [Std.OrientedOrd.eq_swap, hlt] at hgt
    cases hgt
  · rw [List.perm_ext_iff_of_nodup (nodup_diff_conflicts _ _ _).of_map
      (nodup_diff_conflicts _ _ _).of_map]
    intro conflict
    rw [mem_diff_conflicts, mem_diff_conflicts]
    exact hsame conflict

/-- What the next diff decides once the plan is carried out: the conflicts again,
and nothing else. -/
theorem Copied.decisionAt
    (hup : Copied (diffManifests base localSide remoteSide).upload SyncAction.localEntry
      remoteSide remoteSide')
    (hdown : Copied (diffManifests base localSide remoteSide).download SyncAction.remoteEntry
      localSide localSide') (path : String) :
    ObSink.decisionAt (checkpointManifest base remoteSide'
        ((diffManifests base localSide remoteSide).conflicts.map Conflict.path))
      localSide' remoteSide' path =
      match ObSink.decisionAt base localSide remoteSide path with
      | .conflict conflict => .conflict conflict
      | _ => .nothing := by
  rcases hup.sides hdown path with ⟨conflict, hdecision, hlocal, hremote⟩ |
    ⟨hpath, hlocal, hremote⟩
  · rw [hdecision]
    rw [ObSink.decisionAt, checkpointManifest_getElem?, if_pos (path_mem_diff_conflicts hdecision),
      hlocal, hremote]
    exact hdecision
  · rw [ObSink.decisionAt, decide3_eq, if_pos (hlocal.trans hremote.symm)]
    split
    next conflict hdecision => exact absurd (path_mem_diff_conflicts hdecision) hpath
    next => rfl

end Settled

/-- The three-way diff lists every path at most once, treats both sides alike
and looks at versions only; and a plan that was carried out, with the conflicts
held back from the new base, leaves exactly those conflicts, every other path
at the version of the side that had changed. -/
theorem diff_is_symmetric_and_settles (base localSide remoteSide : Manifest) :
    (diffManifests base localSide remoteSide).paths.Nodup ∧
    diffManifests base remoteSide localSide = (diffManifests base localSide remoteSide).mirror ∧
    (∀ base' localSide' remoteSide', SameContent base base' → SameContent localSide localSide' →
      SameContent remoteSide remoteSide' →
      (diffManifests base' localSide' remoteSide').shape =
        (diffManifests base localSide remoteSide).shape) ∧
    ∀ localSide' remoteSide',
      Copied (diffManifests base localSide remoteSide).upload SyncAction.localEntry
        remoteSide remoteSide' →
      Copied (diffManifests base localSide remoteSide).download SyncAction.remoteEntry
        localSide localSide' →
      let conflicts := (diffManifests base localSide remoteSide).conflicts
      let base' := checkpointManifest base remoteSide' (conflicts.map Conflict.path)
      diffManifests base' localSide' remoteSide' =
        { upload := [], download := [], conflicts := conflicts } ∧
      ∀ path ∉ conflicts.map Conflict.path,
        version base'[path]? = changedVersion base[path]? localSide[path]? remoteSide[path]? ∧
        version localSide'[path]? =
          changedVersion base[path]? localSide[path]? remoteSide[path]? ∧
        version remoteSide'[path]? =
          changedVersion base[path]? localSide[path]? remoteSide[path]? := by
  refine ⟨nodup_diff_paths _ _ _, diffManifests_swap _ _ _, ?_, ?_⟩
  · intro base' localSide' remoteSide' hbase hlocal hremote
    exact (shape_of_sameContent hbase hlocal hremote).symm
  · intro localSide' remoteSide' hup hdown conflicts base'
    -- what is decided again is a conflict or nothing
    have hdecision := hup.decisionAt hdown
    constructor
    · have hupload : (diffManifests base' localSide' remoteSide').upload = [] := by
        rw [List.eq_nil_iff_forall_not_mem]
        intro action hmem
        have hagain := (hdecision action.path).symm.trans (mem_diff_upload.mp hmem)
        split at hagain <;> cases hagain
      have hdownload : (diffManifests base' localSide' remoteSide').download = [] := by
        rw [List.eq_nil_iff_forall_not_mem]
        intro action hmem
        have hagain := (hdecision action.path).symm.trans (mem_diff_download.mp hmem)
        split at hagain <;> cases hagain
      have hconflicts : (diffManifests base' localSide' remoteSide').conflicts = conflicts := by
        apply conflicts_congr
        intro conflict
        rw [hdecision conflict.path]
        constructor
        · intro hagain
          split at hagain
          next found hfound => rw [hfound, hagain]
          next => cases hagain
        · intro hfound
          rw [hfound]
      generalize diffManifests base' localSide' remoteSide' = again at *
      obtain ⟨upload, download, found⟩ := again
      rw [ManifestDiff.mk.injEq]
      exact ⟨hupload, hdownload, hconflicts⟩
    · intro path hpath
      rcases hup.sides hdown path with ⟨conflict, hconflict, _⟩ | ⟨_, hlocal, hremote⟩
      · exact absurd (path_mem_diff_conflicts hconflict) hpath
      · refine ⟨?_, hlocal, hremote⟩
        rw [checkpointManifest_getElem?, if_neg hpath]
        exact hremote

/-- An edit to upload, one to download, and a conflict. -/
def sampleSides : Manifest × Manifest × Manifest :=
  (∅,
    (((∅ : Manifest).insert "mine" { hash := "a" }).insert "both" { hash := "b" }),
    (((∅ : Manifest).insert "theirs" { hash := "c" }).insert "both" { hash := "d" }))

theorem sample_plan_settles :
    let diff := diffManifests sampleSides.1 sampleSides.2.1 sampleSides.2.2
    let remoteSide := copyPlanned SyncAction.localEntry diff.upload sampleSides.2.2
    let localSide := copyPlanned SyncAction.remoteEntry diff.download sampleSides.2.1
    diffManifests (checkpointManifest sampleSides.1 remoteSide (diff.conflicts.map Conflict.path))
      localSide remoteSide = { upload := [], download := [], conflicts := diff.conflicts } :=
  ((diff_is_symmetric_and_settles sampleSides.1 sampleSides.2.1 sampleSides.2.2).2.2.2 _ _
    (copied_copyPlanned _ _ (nodup_diff_upload _ _ _))
    (copied_copyPlanned _ _ (nodup_diff_download _ _ _))).1

end ObSink
