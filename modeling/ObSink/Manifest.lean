import Mathlib.Data.List.Sort
import ObSink.Lib.TreeMap
import ObSink.Types

/-! # The three-way diff and the checkpoint

`core/src/manifest.rs`. A side changed when its version differs from the
base; only the content hash and the deleted flag take part.
-/

namespace ObSink

/-- The identity of a path's content on one side. A tombstone and an absent
entry are the same version. -/
inductive Version where
  | gone
  | present (hash : String)
  deriving DecidableEq, Repr

def version : Option FileEntry → Version
  | some entry => if entry.deleted then .gone else .present entry.hash
  | none => .gone

structure ManifestDiff where
  upload : List SyncAction
  download : List SyncAction
  conflicts : List Conflict
  deriving DecidableEq, Repr

/-- The entry for a side, or a tombstone synthesized from the base when the
side has no entry at all. -/
def localOrTombstone (entry base : Option FileEntry) : FileEntry :=
  match entry with
  | some entry => entry
  | none =>
      { hash := (base.map FileEntry.hash).getD ""
        modified := (base.map FileEntry.modified).getD 0
        size := (base.map FileEntry.size).getD 0
        deleted := true
        encPath := (base.map FileEntry.encPath).getD "" }

/-- What the diff does with one path. -/
inductive Decision where
  | nothing
  | upload (action : SyncAction)
  | download (action : SyncAction)
  | conflict (conflict : Conflict)
  deriving DecidableEq, Repr

def Decision.upload? : Decision → Option SyncAction
  | .upload action => some action
  | _ => none

def Decision.download? : Decision → Option SyncAction
  | .download action => some action
  | _ => none

def Decision.conflict? : Decision → Option Conflict
  | .conflict found => some found
  | _ => none

/-- The body of the loop of `diffManifests`, for one path. -/
def decide3 (path : String) (baseEntry localEntry remoteEntry : Option FileEntry) : Decision :=
  let baseVersion := version baseEntry
  let localVersion := version localEntry
  let remoteVersion := version remoteEntry
  match decide (localVersion ≠ baseVersion), decide (remoteVersion ≠ baseVersion) with
  | false, false => .nothing
  | true, false =>
      .upload
        { path
          kind := match localVersion with
            | .present _ => .upload
            | .gone => .deleteRemote
          localEntry := some (localOrTombstone localEntry baseEntry)
          remoteEntry }
  | false, true =>
      .download
        { path
          kind := match remoteVersion with
            | .present _ => .download
            | .gone => .deleteLocal
          localEntry
          remoteEntry := some (localOrTombstone remoteEntry baseEntry) }
  | true, true =>
      if localVersion = remoteVersion then .nothing
      else .conflict
        { path
          localEntry := localOrTombstone localEntry baseEntry
          remoteEntry := localOrTombstone remoteEntry baseEntry }

/-- The keys of the three manifests, in order and without repetition. -/
def diffPaths (base localSide remoteSide : Manifest) : List String :=
  (Std.ExtTreeSet.ofList (base.keys ++ localSide.keys ++ remoteSide.keys)).toList

/-- The decision of the diff about a path. -/
def decisionAt (base localSide remoteSide : Manifest) (path : String) : Decision :=
  decide3 path base[path]? localSide[path]? remoteSide[path]?

/-- The three-way diff against the last checkpoint. -/
def diffManifests (base localSide remoteSide : Manifest) : ManifestDiff :=
  let decisions := (diffPaths base localSide remoteSide).map (decisionAt base localSide remoteSide)
  { upload := decisions.filterMap Decision.upload?
    download := decisions.filterMap Decision.download?
    conflicts := decisions.filterMap Decision.conflict? }

/-- One held-back path of `checkpointManifest`. -/
def holdBackPath (previousBase next : Manifest) (path : String) : Manifest :=
  match previousBase[path]? with
  | some entry => next.insert path entry
  | none => next.erase path

/-- The next checkpoint: the re-fetched server manifest, except that every
held-back path keeps its previous base entry. -/
def checkpointManifest (previousBase refetched : Manifest) (holdBack : List String) : Manifest :=
  holdBack.foldl (holdBackPath previousBase) refetched

/-! ## Lookups -/

theorem checkpointManifest_getElem? (previousBase refetched : Manifest) (holdBack : List String)
    (path : String) :
    (checkpointManifest previousBase refetched holdBack)[path]? =
      if path ∈ holdBack then previousBase[path]? else refetched[path]? := by
  unfold checkpointManifest
  induction holdBack generalizing refetched with
  | nil => simp
  | cons held rest ih =>
      have hstep : (holdBackPath previousBase refetched held)[path]? =
          if held = path then previousBase[path]? else refetched[path]? := by
        unfold holdBackPath
        by_cases heq : held = path
        · subst heq
          cases hentry : previousBase[held]? with
          | none => simp
          | some entry => simp
        · rw [if_neg heq]
          cases previousBase[held]? with
          | none => exact Std.ExtTreeMap.getElem?_erase_of_ne _ heq
          | some entry => exact Std.ExtTreeMap.getElem?_insert_of_ne _ entry heq
      rw [List.foldl_cons, ih, hstep]
      by_cases hrest : path ∈ rest
      · simp [hrest]
      · by_cases heq : held = path
        · simp [heq]
        · simp [heq, hrest, Ne.symm heq]

/-- A checkpoint only depends on what the previous one says of the held-back
paths. -/
theorem checkpointManifest_congr {previousBase previousBase' : Manifest} (refetched : Manifest)
    {holdBack : List String}
    (hheld : ∀ path ∈ holdBack, previousBase[path]? = previousBase'[path]?) :
    checkpointManifest previousBase refetched holdBack =
      checkpointManifest previousBase' refetched holdBack := by
  ext1 path
  rw [checkpointManifest_getElem?, checkpointManifest_getElem?]
  by_cases hmem : path ∈ holdBack
  · rw [if_pos hmem, if_pos hmem, hheld path hmem]
  · rw [if_neg hmem, if_neg hmem]

/-- The decision in terms of versions: sides that agree are left alone, the
side that kept the base version follows the other, and else it is a conflict. -/
theorem decide3_eq (path : String) (base localEntry remoteEntry : Option FileEntry) :
    decide3 path base localEntry remoteEntry =
      if version localEntry = version remoteEntry then .nothing
      else if version localEntry = version base then
        .download
          { path
            kind := match version remoteEntry with
              | .present _ => .download
              | .gone => .deleteLocal
            localEntry
            remoteEntry := some (localOrTombstone remoteEntry base) }
      else if version remoteEntry = version base then
        .upload
          { path
            kind := match version localEntry with
              | .present _ => .upload
              | .gone => .deleteRemote
            localEntry := some (localOrTombstone localEntry base)
            remoteEntry }
      else .conflict
        { path
          localEntry := localOrTombstone localEntry base
          remoteEntry := localOrTombstone remoteEntry base } := by
  unfold decide3
  by_cases hlocal : version localEntry = version base
  · by_cases hremote : version remoteEntry = version base
    · simp [hlocal, hremote]
    · simp [hlocal, hremote, Ne.symm hremote]
  · by_cases hremote : version remoteEntry = version base
    · simp [hlocal, hremote]
    · by_cases hsame : version localEntry = version remoteEntry
      · simp [hsame, hremote]
      · simp [hlocal, hremote, hsame]

/-! ## What the diff lists -/

theorem decide3_upload_path {path : String} {base localEntry remoteEntry : Option FileEntry}
    {action : SyncAction} (hdecide : decide3 path base localEntry remoteEntry = .upload action) :
    action.path = path := by
  unfold decide3 at hdecide
  simp only at hdecide
  split at hdecide
  · cases hdecide
  · cases hdecide
    rfl
  · cases hdecide
  · split at hdecide <;> cases hdecide

theorem decide3_download_path {path : String} {base localEntry remoteEntry : Option FileEntry}
    {action : SyncAction} (hdecide : decide3 path base localEntry remoteEntry = .download action) :
    action.path = path := by
  unfold decide3 at hdecide
  simp only at hdecide
  split at hdecide
  · cases hdecide
  · cases hdecide
  · cases hdecide
    rfl
  · split at hdecide <;> cases hdecide

theorem decide3_conflict_path {path : String} {base localEntry remoteEntry : Option FileEntry}
    {conflict : Conflict}
    (hdecide : decide3 path base localEntry remoteEntry = .conflict conflict) :
    conflict.path = path := by
  unfold decide3 at hdecide
  simp only at hdecide
  split at hdecide
  · cases hdecide
  · cases hdecide
  · cases hdecide
  · split at hdecide
    · cases hdecide
    · cases hdecide
      rfl

theorem Decision.upload?_eq_some {decision : Decision} {action : SyncAction} :
    decision.upload? = some action ↔ decision = .upload action := by
  cases decision <;> simp [upload?]

theorem Decision.download?_eq_some {decision : Decision} {action : SyncAction} :
    decision.download? = some action ↔ decision = .download action := by
  cases decision <;> simp [download?]

theorem Decision.conflict?_eq_some {decision : Decision} {found : Conflict} :
    decision.conflict? = some found ↔ decision = .conflict found := by
  cases decision <;> simp [conflict?]

theorem mem_diffPaths {base localSide remoteSide : Manifest} {path : String} :
    path ∈ diffPaths base localSide remoteSide ↔
      path ∈ base ∨ path ∈ localSide ∨ path ∈ remoteSide := by
  simp [diffPaths]

/-- A path none of the three sides has is left alone. -/
theorem decisionAt_of_not_mem {base localSide remoteSide : Manifest} {path : String}
    (hpath : path ∉ diffPaths base localSide remoteSide) :
    decisionAt base localSide remoteSide path = .nothing := by
  rw [mem_diffPaths, not_or, not_or] at hpath
  obtain ⟨hbase, hlocal, hremote⟩ := hpath
  rw [decisionAt, Std.ExtTreeMap.getElem?_eq_none hbase, Std.ExtTreeMap.getElem?_eq_none hlocal,
    Std.ExtTreeMap.getElem?_eq_none hremote]
  simp [decide3, version]

theorem nodup_diffPaths (base localSide remoteSide : Manifest) :
    (diffPaths base localSide remoteSide).Nodup := by
  have hdistinct :=
    (Std.ExtTreeSet.ofList (base.keys ++ localSide.keys ++ remoteSide.keys)).distinct_toList
  refine hdistinct.imp ?_
  rintro a b hne rfl
  exact hne Std.ReflCmp.compare_self

section Lists

variable {base localSide remoteSide : Manifest}

theorem mem_diff_upload {action : SyncAction} :
    action ∈ (diffManifests base localSide remoteSide).upload ↔
      decisionAt base localSide remoteSide action.path = .upload action := by
  simp only [diffManifests, List.mem_filterMap, List.mem_map, Decision.upload?_eq_some]
  constructor
  · rintro ⟨decision, ⟨path, _, rfl⟩, hdecision⟩
    rwa [decide3_upload_path hdecision]
  · intro hdecision
    refine ⟨_, ⟨action.path, ?_, rfl⟩, hdecision⟩
    by_contra hnot
    rw [decisionAt_of_not_mem hnot] at hdecision
    cases hdecision

theorem mem_diff_download {action : SyncAction} :
    action ∈ (diffManifests base localSide remoteSide).download ↔
      decisionAt base localSide remoteSide action.path = .download action := by
  simp only [diffManifests, List.mem_filterMap, List.mem_map, Decision.download?_eq_some]
  constructor
  · rintro ⟨decision, ⟨path, _, rfl⟩, hdecision⟩
    rwa [decide3_download_path hdecision]
  · intro hdecision
    refine ⟨_, ⟨action.path, ?_, rfl⟩, hdecision⟩
    by_contra hnot
    rw [decisionAt_of_not_mem hnot] at hdecision
    cases hdecision

theorem mem_diff_conflicts {conflict : Conflict} :
    conflict ∈ (diffManifests base localSide remoteSide).conflicts ↔
      decisionAt base localSide remoteSide conflict.path = .conflict conflict := by
  simp only [diffManifests, List.mem_filterMap, List.mem_map, Decision.conflict?_eq_some]
  constructor
  · rintro ⟨decision, ⟨path, _, rfl⟩, hdecision⟩
    rwa [decide3_conflict_path hdecision]
  · intro hdecision
    refine ⟨_, ⟨conflict.path, ?_, rfl⟩, hdecision⟩
    by_contra hnot
    rw [decisionAt_of_not_mem hnot] at hdecision
    cases hdecision

theorem path_mem_diff_upload {path : String} {action : SyncAction}
    (hdecision : decisionAt base localSide remoteSide path = .upload action) :
    path ∈ (diffManifests base localSide remoteSide).upload.map SyncAction.path := by
  obtain rfl := decide3_upload_path hdecision
  exact List.mem_map.mpr ⟨action, mem_diff_upload.mpr hdecision, rfl⟩

theorem path_mem_diff_download {path : String} {action : SyncAction}
    (hdecision : decisionAt base localSide remoteSide path = .download action) :
    path ∈ (diffManifests base localSide remoteSide).download.map SyncAction.path := by
  obtain rfl := decide3_download_path hdecision
  exact List.mem_map.mpr ⟨action, mem_diff_download.mpr hdecision, rfl⟩

theorem path_mem_diff_conflicts {path : String} {conflict : Conflict}
    (hdecision : decisionAt base localSide remoteSide path = .conflict conflict) :
    path ∈ (diffManifests base localSide remoteSide).conflicts.map Conflict.path := by
  obtain rfl := decide3_conflict_path hdecision
  exact List.mem_map.mpr ⟨conflict, mem_diff_conflicts.mpr hdecision, rfl⟩

/-- A path is in one of the lists if the diff has something to do there. -/
theorem path_mem_diff_iff {path : String} :
    (path ∈ (diffManifests base localSide remoteSide).upload.map SyncAction.path ∨
        path ∈ (diffManifests base localSide remoteSide).download.map SyncAction.path ∨
        path ∈ (diffManifests base localSide remoteSide).conflicts.map Conflict.path) ↔
      decisionAt base localSide remoteSide path ≠ .nothing := by
  constructor
  · intro hlisted hnothing
    rcases hlisted with hmem | hmem | hmem
    · obtain ⟨action, haction, rfl⟩ := List.mem_map.mp hmem
      rw [mem_diff_upload, hnothing] at haction
      cases haction
    · obtain ⟨action, haction, rfl⟩ := List.mem_map.mp hmem
      rw [mem_diff_download, hnothing] at haction
      cases haction
    · obtain ⟨conflict, hconflict, rfl⟩ := List.mem_map.mp hmem
      rw [mem_diff_conflicts, hnothing] at hconflict
      cases hconflict
  · intro hplanned
    cases hdecision : decisionAt base localSide remoteSide path with
    | nothing => exact absurd hdecision hplanned
    | upload action => exact .inl (path_mem_diff_upload hdecision)
    | download action => exact .inr (.inl (path_mem_diff_download hdecision))
    | conflict found => exact .inr (.inr (path_mem_diff_conflicts hdecision))

theorem decisionAt_eq_nothing_iff {path : String} :
    decisionAt base localSide remoteSide path = .nothing ↔
      version localSide[path]? = version remoteSide[path]? := by
  rw [decisionAt, decide3_eq]
  split
  next hsame => exact ⟨fun _ => hsame, fun _ => rfl⟩
  next hdiffers =>
    refine ⟨fun hnothing => ?_, fun hsame => absurd hsame hdiffers⟩
    split at hnothing
    · cases hnothing
    · split at hnothing <;> cases hnothing

end Lists

/-- The paths the diff has something to do with, in order. -/
theorem filter_diffPaths_eq {base localSide remoteSide base' localSide' remoteSide' : Manifest}
    (hsame : ∀ path, decisionAt base localSide remoteSide path =
      decisionAt base' localSide' remoteSide' path) :
    (diffPaths base localSide remoteSide).filter
        (fun path => decisionAt base localSide remoteSide path ≠ .nothing) =
      (diffPaths base' localSide' remoteSide').filter
        (fun path => decisionAt base localSide remoteSide path ≠ .nothing) := by
  have hsorted : ∀ a b c : Manifest, (diffPaths a b c).Pairwise fun x y => compare x y = .lt :=
    fun a b c => Std.ExtTreeSet.ordered_toList
  have hasymm : ∀ x y : String, compare x y = .lt → compare y x = .lt → x = y := by
    intro x y hlt hgt
    rw [Std.OrientedOrd.eq_swap, hlt] at hgt
    cases hgt
  refine List.Perm.eq_of_pairwise (fun x y _ _ => hasymm x y) ((hsorted _ _ _).filter _)
    ((hsorted _ _ _).filter _) ?_
  · rw [List.perm_ext_iff_of_nodup ((nodup_diffPaths _ _ _).filter _)
      ((nodup_diffPaths _ _ _).filter _)]
    intro path
    simp only [List.mem_filter, decide_eq_true_eq]
    refine and_congr_left fun hplanned => ⟨fun _ => ?_, fun _ => ?_⟩
    · by_contra hnot
      exact hplanned ((hsame path).trans (decisionAt_of_not_mem hnot))
    · by_contra hnot
      exact hplanned (decisionAt_of_not_mem hnot)

/-- The diff only depends on its decisions, path by path. -/
theorem diffManifests_congr {base localSide remoteSide base' localSide' remoteSide' : Manifest}
    (hsame : ∀ path, decisionAt base localSide remoteSide path =
      decisionAt base' localSide' remoteSide' path) :
    diffManifests base localSide remoteSide = diffManifests base' localSide' remoteSide' := by
  have hdrop : ∀ {α : Type} (pick : Decision → Option α), pick .nothing = none →
      ∀ (paths : List String) (decision : String → Decision),
        (paths.map decision).filterMap pick =
          ((paths.filter fun path => decision path ≠ .nothing).map decision).filterMap pick := by
    intro α pick hnothing paths decision
    induction paths with
    | nil => rfl
    | cons path rest ih =>
        by_cases hskip : decision path = .nothing
        · simpa [hskip, hnothing] using ih
        · simp only [List.map_cons, List.filterMap_cons, ih, ne_eq, hskip, not_false_eq_true,
            decide_true, List.filter_cons_of_pos]
  have hdecisions : decisionAt base localSide remoteSide =
      decisionAt base' localSide' remoteSide' :=
    funext hsame
  have hlists : ∀ {α : Type} (pick : Decision → Option α), pick .nothing = none →
      ((diffPaths base localSide remoteSide).map
          (decisionAt base localSide remoteSide)).filterMap pick =
        ((diffPaths base' localSide' remoteSide').map
          (decisionAt base' localSide' remoteSide')).filterMap pick := by
    intro α pick hnothing
    rw [hdrop pick hnothing, filter_diffPaths_eq hsame, hdecisions, ← hdrop pick hnothing]
  simp only [diffManifests]
  rw [hlists Decision.upload? rfl, hlists Decision.download? rfl, hlists Decision.conflict? rfl]

/-- Picking at most one item for each path, under its own path, repeats none. -/
theorem nodup_map_filterMap {α : Type} {paths : List String} (hnodup : paths.Nodup)
    (pick : String → Option α) (name : α → String)
    (hname : ∀ path item, pick path = some item → name item = path) :
    ((paths.filterMap pick).map name).Nodup := by
  rw [List.map_filterMap]
  refine hnodup.filterMap ?_
  intro path other found hpath hother
  obtain ⟨item, hitem, rfl⟩ := Option.map_eq_some_iff.mp hpath
  obtain ⟨item', hitem', hsame⟩ := Option.map_eq_some_iff.mp hother
  rw [← hname path item hitem, ← hname other item' hitem', hsame]

theorem nodup_diff_upload (base localSide remoteSide : Manifest) :
    ((diffManifests base localSide remoteSide).upload.map SyncAction.path).Nodup := by
  simp only [diffManifests, List.filterMap_map]
  refine nodup_map_filterMap (nodup_diffPaths base localSide remoteSide) _ _ ?_
  intro path action hpick
  exact decide3_upload_path (Decision.upload?_eq_some.mp hpick)

theorem nodup_diff_download (base localSide remoteSide : Manifest) :
    ((diffManifests base localSide remoteSide).download.map SyncAction.path).Nodup := by
  simp only [diffManifests, List.filterMap_map]
  refine nodup_map_filterMap (nodup_diffPaths base localSide remoteSide) _ _ ?_
  intro path action hpick
  exact decide3_download_path (Decision.download?_eq_some.mp hpick)

theorem nodup_diff_conflicts (base localSide remoteSide : Manifest) :
    ((diffManifests base localSide remoteSide).conflicts.map Conflict.path).Nodup := by
  simp only [diffManifests, List.filterMap_map]
  refine nodup_map_filterMap (nodup_diffPaths base localSide remoteSide) _ _ ?_
  intro path conflict hpick
  exact decide3_conflict_path (Decision.conflict?_eq_some.mp hpick)

end ObSink
