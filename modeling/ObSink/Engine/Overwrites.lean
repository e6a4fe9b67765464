import ObSink.Engine.Rounds
import ObSink.Engine.Sealed

/-! # What the engine overwrites

A file the engine replaces or removes was listed when the folder was walked, and
the plan has that version as the local side of its path. None of the writing paths
looks at the file again. What has to hold between the walk and the write, and
while a plan waits for its answers.
-/

namespace ObSink.Engine

open Prog (Setting Holds Within Reaches perform holds_bind holds_pure)

/-- The version of a file is one of these local sides. -/
def Records (crypto : Crypto) (sides : List FileEntry) (file : StoredFile) : Prop :=
  ∃ entry ∈ sides, entry.deleted = false ∧ entry.hash = crypto.contentHmac file.content

/-- The file at the path is one of these local sides, or there is none. -/
def Noticed (crypto : Crypto) (path : String) (sides : List FileEntry) (world : World) : Prop :=
  ∀ file, world.device.folder[path]? = some file → Records crypto sides file

/-- What is replaced or removed was seen. -/
def ReplacesSeen (crypto : Crypto) (path : String) (sides : List FileEntry) (before : World)
    (effect : Effect) (_reply : effect.Reply) (_after : World) : Prop :=
  effect.Touches path → Noticed crypto path sides before

/-- What others do, when they put nothing else where a seen file is, or none. -/
def LeavesSeen (crypto : Crypto) (path : String) (sides : List FileEntry) (before after : World) :
    Prop :=
  Noticed crypto path sides before → Noticed crypto path sides after

/-- The engine beside such others. Any operation may fail. -/
def sparing (context : Context) (path : String) (sides : List FileEntry) :
    Setting Effect Effect.Reply World where
  performs := Performs context fun _ => True
  rely := LeavesSeen context.crypto path sides
  guarantee := ReplacesSeen context.crypto path sides

variable {context : Context} {path : String} {sides : List FileEntry}

theorem Noticed.untouched {effect : Effect} (huntouched : ¬ effect.Touches path)
    {before after : World}
    {reply : effect.Reply} (hperform : Performs context (fun _ => True) effect before reply after)
    (hseen : Noticed context.crypto path sides before) :
    Noticed context.crypto path sides after := by
  have hsame : Standing path before.device.folder[path]? after :=
    Standing.untouched huntouched hperform rfl
  intro file hfile
  apply hseen
  exact hsame.symm.trans hfile

/-- A program that leaves the file alone keeps what is known of it. -/
theorem holds_seen_untouched {α : Type} {prog : Eff α} {post : α → Prop}
    (hwithin : Within (fun effect => ¬ effect.Touches path) post prog) {fact : Prop} {world : World}
    (hseen : Noticed context.crypto path sides world ∨ fact) :
    Holds (sparing context path sides)
      (fun value after => (Noticed context.crypto path sides after ∨ fact) ∧ post value)
        prog world := by
  apply hwithin.holds
  · intro before after hrely
    exact Or.imp_left hrely
  · intro effect huntouched before reply after hbefore hperform
    refine ⟨fun htouches => absurd htouches huntouched, ?_⟩
    exact hbefore.imp_left fun hseen => hseen.untouched huntouched hperform
  · exact hseen

/-- An operation on the file itself, where it was seen. -/
theorem holds_seen_touch (effect : Effect) {post : effect.Reply → World → Prop}
    (hpost : ∀ before reply after, Noticed context.crypto path sides before →
      Performs context (fun _ => True) effect before reply after → post reply after)
    {world : World} (hseen : Noticed context.crypto path sides world) :
    Holds (sparing context path sides) post (perform effect) world := by
  intro before hrely reply after hperform
  exact ⟨fun _ => hrely hseen, hpost before reply after (hrely hseen) hperform⟩

theorem Effect.Books.untouched {effect : Effect} (hbooks : effect.Books) :
    ¬ effect.Touches path := by
  cases effect with
  | writeFile other content => exact hbooks.elim
  | deleteLocalFile other => exact hbooks.elim
  | _ => exact id

theorem Effect.Elsewhere.untouched {effect : Effect} (helsewhere : effect.Elsewhere path) :
    ¬ effect.Touches path := by
  cases effect with
  | writeFile other content => exact helsewhere
  | deleteLocalFile other => exact helsewhere
  | _ => exact id

/-! ## Downloads -/

theorem stable_seen :
    Stable (sparing context path sides) path (Noticed context.crypto path sides) where
  rely := fun _ _ hrely hseen => hrely hseen
  elsewhere := by
    intro effect helsewhere before reply after hseen hperform
    exact ⟨fun htouches => absurd htouches helsewhere.untouched,
      hseen.untouched helsewhere.untouched hperform⟩

theorem stable_anything : Stable (sparing context path sides) path fun _ => True where
  rely := fun _ _ _ _ => trivial
  elsewhere := by
    intro effect helsewhere before reply after _ _
    exact ⟨fun htouches => absurd htouches helsewhere.untouched, trivial⟩

/-- A download finds what was seen, until it has written. -/
theorem fetchRule_seen : FetchRule (sparing context path sides) path context.crypto
    (Noticed context.crypto path sides) (fun _ => True) (fun _ => True)
    (fun _ => Noticed context.crypto path sides) where
  stable_before := stable_seen
  stable_after := stable_anything
  stable_failed := stable_anything
  stable_fetched _ := stable_seen
  get := by
    intro before reply after hseen hperform
    have huntouched : ¬ (Effect.getFile path).Touches path := id
    refine ⟨fun htouches => absurd htouches huntouched, ?_⟩
    cases reply with
    | error error => trivial
    | ok blob => exact hseen.untouched huntouched hperform
  unreadable := by
    intro blob error world _ _
    trivial
  write := by
    intro blob plaintext _ before reply after hseen _
    refine ⟨fun _ => hseen, ?_⟩
    cases reply with
    | error error => trivial
    | ok value => trivial

/-- A path is touched by one download at most. -/
theorem holds_applyDownloads_seen {downloads : List SyncAction}
    (hnodup : (downloads.map SyncAction.path).Nodup)
    (hkinds : ∀ action ∈ downloads, action.kind = .download ∨ action.kind = .deleteLocal)
    {world : World} (hseen : Noticed context.crypto path sides world) :
    Holds (sparing context path sides) (fun _ _ => True) (applyDownloads context.crypto downloads)
      world := by
  by_cases hpath : path ∈ downloads.map SyncAction.path
  · obtain ⟨action, hmem, heq⟩ := List.mem_map.mp hpath
    rcases hkinds action hmem with hdownload | hdelete
    · apply (fetchRule_seen.holds_applyDownloads hnodup hmem heq hdownload hseen).mono
      exact fun _ _ _ => trivial
    · have htriple : (sparing context path sides).Triple (.deleteLocalFile path)
          (Noticed context.crypto path sides) (orFailed (fun _ _ => True) fun _ => True) := by
        intro before reply after hbefore _
        refine ⟨fun _ => hbefore, ?_⟩
        cases reply with
        | error error => trivial
        | ok value => trivial
      apply (holds_applyDownloads_delete context.crypto stable_seen stable_anything stable_anything
        htriple hnodup hmem heq hdelete hseen).mono
      exact fun _ _ _ => trivial
  · apply (holds_applyDownloads_idle context.crypto stable_seen hnodup hpath hseen).mono
    exact fun _ _ _ => trivial

/-! ## From the walk on -/

/-- What a plan has as local sides of a path. -/
def localSides (plan : SyncPlan) (path : String) : List FileEntry :=
  (plan.upload ++ plan.download).filterMap
      (fun action => if action.path = path then action.localEntry else none) ++
    plan.conflicts.filterMap fun conflict =>
      if conflict.path = path then some conflict.localEntry else none

/-- The rest of `prepareSync`, when the folder has been walked. -/
def prepareFrom (crypto : Crypto) (ignore : IgnoreRules) (base : Manifest) (folder : Folder)
    (now : Nat) : Eff (Except SyncEngineError SyncPlan) := do
  let working := buildWorkingManifest crypto ignore now folder base
  match ← fetchRemoteManifest crypto with
  | .error error => pure (.error error)
  | .ok remote => do
      let diff := diffLocalAndRemote base working remote ignore
      let failures ← applyDownloads crypto diff.download
      return .ok { upload := diff.upload, download := diff.download,
                   conflicts := diff.conflicts, failures }

theorem prepareSync_eq (crypto : Crypto) (ignore : IgnoreRules) :
    prepareSync crypto ignore = (do
      match ← perform Effect.loadLocalState with
      | .error error => pure (.error error)
      | .ok (base, folder, now) => prepareFrom crypto ignore base folder now) :=
  rfl

/-- What the walk lists at the path is the file of that name. -/
def ListedAs (ignore : IgnoreRules) (path : String) (folder : Folder) : Prop :=
  ignore.isIgnored path = false → ∀ name file, folder[name]? = some file →
    (normalizePath name = path ↔ name = path)

theorem ListedAs.of_plain {ignore : IgnoreRules} {folder : Folder} (hplain : PlainFolder folder) :
    ListedAs ignore path folder := by
  intro _ name file hname
  rw [(hplain name file hname).normalizePath]

/-- The version of the file at the path, if there is one. -/
def walkedSides (crypto : Crypto) (path : String) (folder : Folder) : List FileEntry :=
  (folder[path]?.map (walkEntry crypto)).toList

theorem seen_walked (crypto : Crypto) (path : String) (world : World) :
    Noticed crypto path (walkedSides crypto path world.device.folder) world := by
  intro file hfile
  exact ⟨walkEntry crypto file, by simp [walkedSides, hfile], rfl, rfl⟩

/-- A planned download: its kind, and what is recorded of the file. -/
theorem download_records {crypto : Crypto} {ignore : IgnoreRules} {folder : Folder}
    (hlisted : ListedAs ignore path folder) {base remote : Manifest} {now : Nat}
    {action : SyncAction}
    (hmem : action ∈ (diffLocalAndRemote base (buildWorkingManifest crypto ignore now folder base)
      remote ignore).download) :
    (action.kind = .download ∨ action.kind = .deleteLocal) ∧
      (action.path = path → ∀ entry ∈ walkedSides crypto path folder,
        action.localEntry = some entry) := by
  have hdecision := mem_diff_download.mp hmem
  rw [decisionAt, decide3_eq] at hdecision
  split at hdecision
  next => cases hdecision
  next hdiffers =>
    split at hdecision
    next =>
      have haction := (Decision.download.inj hdecision).symm
      constructor
      · rw [haction]
        simp only
        split
        next => exact Or.inl rfl
        next => exact Or.inr rfl
      · rintro rfl entry hentry
        have hseen : ignore.isIgnored action.path = false := by
          rw [← Bool.not_eq_true]
          intro hignored
          simp [keep_getElem?, hignored] at hdiffers
        rw [congrArg SyncAction.localEntry haction]
        simp only [keep_getElem?, hseen, Bool.false_eq_true, ↓reduceIte,
          buildWorkingManifest_getElem?, buildManifest_getElem?_of_named crypto ignore hlisted]
        rw [Option.mem_toList.mp hentry]
    next =>
      split at hdecision
      next => cases hdecision
      next => cases hdecision

/-- From the walk to the end of the downloads. -/
theorem holds_prepareFrom_seen {folder : Folder} (hlisted : ListedAs context.ignore path folder)
    (base : Manifest) (now : Nat) {world : World}
    (hseen : Noticed context.crypto path (walkedSides context.crypto path folder) world) :
    Holds (sparing context path (walkedSides context.crypto path folder))
      (fun result _ => ∀ plan, result = .ok plan → path ∈ plan.download.map SyncAction.path →
        walkedSides context.crypto path folder ⊆ localSides plan path)
      (prepareFrom context.crypto context.ignore base folder now) world := by
  rw [prepareFrom, holds_bind]
  have hbooks := (fetchRemoteManifest_books context.crypto).weaken fun effect hbooks =>
    (hbooks.untouched : ¬ effect.Touches path)
  apply (holds_seen_untouched hbooks (Or.inl hseen : _ ∨ False)).mono
  intro result fetched hfetched
  cases result with
  | error error =>
      intro plan hplan
      cases hplan
  | ok remote =>
      simp only [holds_bind]
      apply (holds_applyDownloads_seen (nodup_diff_download _ _ _) _ _).mono
      · intro failures after _ plan hplan hpath entry hentry
        obtain rfl := Except.ok.inj hplan
        obtain ⟨action, hmem, rfl⟩ := List.mem_map.mp hpath
        have hlocal := (download_records hlisted hmem).2 rfl entry hentry
        simp only [localSides, List.mem_append, List.mem_filterMap]
        exact Or.inl ⟨action, Or.inr hmem, by simp [hlocal]⟩
      · intro action hmem
        exact (download_records hlisted hmem).1
      · exact hfetched.1.resolve_right id

/-! ## Resolutions -/

/-- The answer leaves new content at the path. -/
def Puts (resolutions : List ConflictResolution) (path : String) (conflict : Conflict) : Prop :=
  (KeepsRemote resolutions path conflict ∧ conflict.remoteEntry.deleted = false) ∨
    CopiesTo resolutions path conflict

/-- The file was seen, or no answer overwrites it. -/
def Unharmed (crypto : Crypto) (resolutions : List ConflictResolution) (path : String)
    (sides : List FileEntry) (conflicts : List Conflict) (world : World) : Prop :=
  Noticed crypto path sides world ∨ ∀ conflict ∈ conflicts, ¬ Overwrites resolutions path conflict

section Resolutions

variable {resolutions : List ConflictResolution} {conflict : Conflict} {rest : List Conflict}

theorem Unharmed.tail {crypto : Crypto} {world : World}
    (hspared : Noticed crypto path sides world ∨
      ∀ later ∈ conflict :: rest, ¬ Overwrites resolutions path later) :
    Unharmed crypto resolutions path sides rest world :=
  hspared.imp_right fun hnone later hlater => hnone later (List.mem_cons_of_mem _ hlater)

theorem Unharmed.seen {crypto : Crypto} {world : World}
    (hspared : Unharmed crypto resolutions path sides (conflict :: rest) world)
    (hover : Overwrites resolutions path conflict) : Noticed crypto path sides world :=
  hspared.resolve_right fun hnone => hnone conflict List.mem_cons_self hover

/-- Fetch a version and write it where the file was seen. -/
theorem holds_fetchTo_seen (source : String) {world : World}
    (hseen : Noticed context.crypto path sides world) :
    Holds (sparing context path sides) (fun _ _ => True) (fetchTo context.crypto source path)
      world := by
  rw [fetchTo, holds_bind]
  apply holds_seen_touch _ _ hseen
  intro before reply after hbefore hperform
  have hafter := hbefore.untouched (show ¬ (Effect.getFile source).Touches path from id) hperform
  cases reply with
  | error error => trivial
  | ok blob =>
      simp only [decryptAndWrite]
      split
      next => trivial
      next => exact holds_seen_touch _ (fun _ _ _ _ _ => trivial) hafter

/-- A local file removed, where it was seen. -/
theorem holds_deleteLocalFile_seen {world : World}
    (hseen : Noticed context.crypto path sides world) :
    Holds (sparing context path sides)
      (fun reply after => ∀ value, reply = .ok value → Noticed context.crypto path sides after)
      (perform (Effect.deleteLocalFile path)) world := by
  apply holds_seen_touch _ _ hseen
  intro before reply after _ hperform value hok
  subst hok
  obtain ⟨env, _, hhandle⟩ := hperform
  have hnone : after.device.folder[path]? = none := by
    simp only [handle] at hhandle
    split at hhandle
    next hmissing =>
      rw [← (Prod.mk.inj hhandle).2]
      exact hmissing
    next =>
      rcases env.change_cases before (before.device.removeFile path) with hdone | ⟨_, hfailed⟩
      · rw [← (Prod.mk.inj (hdone.symm.trans hhandle)).2]
        exact Std.ExtTreeMap.getElem?_erase_self
      · cases (Prod.mk.inj (hfailed.symm.trans hhandle)).1
  intro file hfile
  rw [hnone] at hfile
  cases hfile

/-- The answer to one conflict. -/
theorem holds_applyResolution_seen {resolved : Resolved}
    (hfirst : Puts resolutions path conflict → ∀ later ∈ rest, ¬ Overwrites resolutions path later)
    {world : World}
    (hspared : Unharmed context.crypto resolutions path sides (conflict :: rest) world) :
    Holds (sparing context path sides)
      (fun result after => ∀ next, result = .ok next →
        Unharmed context.crypto resolutions path sides rest after)
      (applyResolution context.crypto resolutions resolved conflict) world := by
  unfold applyResolution
  cases hanswer : resolutionFor resolutions conflict.path with
  | none =>
      intro next hnext
      cases hnext
  | some choice =>
      have hchoice : choiceOf resolutions conflict = some (effectiveChoice choice conflict) := by
        rw [choiceOf, hanswer, Option.map_some]
      simp only
      split
      next => exact fun _ _ => Unharmed.tail hspared
      next => exact fun _ _ => Unharmed.tail hspared
      next hkeep =>
        rw [hkeep] at hchoice
        rw [holds_bind]
        -- keepRemote replaces the file only where the conflict is on the path
        by_cases hpath : conflict.path = path
        · have hkeeps : KeepsRemote resolutions path conflict := ⟨hpath, hchoice⟩
          have hseen := Unharmed.seen hspared (Or.inl hkeeps)
          subst hpath
          unfold applyKeepRemote
          split
          next =>
            apply (holds_deleteLocalFile_seen hseen).mono
            intro reply after hafter
            cases reply with
            | error error =>
                intro next hnext
                cases hnext
            | ok value => exact fun _ _ => Or.inl (hafter value rfl)
          next hlive =>
            have hputs : Puts resolutions conflict.path conflict :=
              Or.inl ⟨hkeeps, by simpa using hlive⟩
            apply (holds_fetchTo_seen conflict.path hseen).mono
            intro reply after _
            cases reply with
            | error error =>
                intro next hnext
                cases hnext
            | ok value => exact fun _ _ => Or.inr (hfirst hputs)
        · have hwithin := (applyKeepRemote_serves context.crypto conflict).weaken
            fun effect hserves => hserves.untouched hpath
          apply (holds_seen_untouched hwithin (Unharmed.tail hspared)).mono
          intro reply after hafter
          cases reply with
          | error error =>
              intro next hnext
              cases hnext
          | ok value => exact fun _ _ => hafter.1
      next hkeep =>
        rw [hkeep] at hchoice
        rw [holds_bind]
        -- keepBoth replaces it only where the copy lands on the path
        have hwritten : Holds (sparing context path sides) (fun _ after =>
            Unharmed context.crypto resolutions path sides rest after)
            (writeConflictCopy context.crypto conflict) world := by
          by_cases hpath : conflictCopyPath conflict.path = path
          · have hcopies : CopiesTo resolutions path conflict := ⟨hchoice, hpath⟩
            have hseen := Unharmed.seen hspared (Or.inr hcopies)
            subst hpath
            simp only [writeConflictCopy, holds_bind]
            apply (holds_fetchTo_seen conflict.path hseen).mono
            intro reply after _
            cases reply with
            | error error => exact Or.inr (hfirst (Or.inr hcopies))
            | ok value => exact Or.inr (hfirst (Or.inr hcopies))
          · have hwithin := (writeConflictCopy_serves context.crypto conflict).weaken
              fun effect hserves => hserves.untouched hpath
            apply (holds_seen_untouched hwithin (Unharmed.tail hspared)).mono
            exact fun _ _ hafter => hafter.1
        apply hwritten.mono
        intro reply written hrest
        cases reply with
        | error error =>
            intro next hnext
            cases hnext
        | ok copy =>
            have hstat : Within (fun effect => ¬ effect.Touches path) (fun _ => True)
                (perform (Effect.statFile copy) : Eff _) := ⟨id, fun _ => trivial⟩
            simp only [buildUploadActionForPath, holds_bind]
            apply (holds_seen_untouched hstat hrest).mono
            intro reply after hafter
            cases reply with
            | error error =>
                intro next hnext
                cases hnext
            | ok file => exact fun _ _ => hafter.1

/-- The answers, one after the other. -/
theorem holds_applyResolutions_seen {conflicts : List Conflict} {resolved : Resolved}
    (hpairs : conflicts.Pairwise fun first later =>
      Puts resolutions path first → ¬ Overwrites resolutions path later) {world : World}
    (hspared : Unharmed context.crypto resolutions path sides conflicts world) :
    Holds (sparing context path sides) (fun _ _ => True)
      (applyResolutions context.crypto resolutions conflicts resolved) world := by
  induction conflicts generalizing resolved world with
  | nil => trivial
  | cons conflict rest ih =>
      rw [List.pairwise_cons] at hpairs
      rw [applyResolutions, holds_bind]
      have hfirst : Puts resolutions path conflict →
          ∀ later ∈ rest, ¬ Overwrites resolutions path later :=
        fun hputs later hlater => hpairs.1 later hlater hputs
      apply (holds_applyResolution_seen hfirst hspared).mono
      intro result after hresult
      cases result with
      | error error => trivial
      | ok next => exact ih hpairs.2 (hresult next rfl)

end Resolutions

/-! ## The whole cycle -/

/-- From the walk on, a download replaces or removes what the walk listed, and the
plan has it as local side. A plan, however old, replaces or removes what it has as
local side, if that is at the path when its answers are applied, and no answer
overwrites what another one has written there. In both, others put nothing else
where that version is, or no file. -/
theorem replaces_what_was_seen (context : Context) (path : String) :
    (∀ (base : Manifest) (now : Nat) (world : World),
      ListedAs context.ignore path world.device.folder →
      Holds (sparing context path (walkedSides context.crypto path world.device.folder))
        (fun result _ => ∀ plan, result = .ok plan → path ∈ plan.download.map SyncAction.path →
          walkedSides context.crypto path world.device.folder ⊆ localSides plan path)
        (prepareFrom context.crypto context.ignore base world.device.folder now) world) ∧
    ∀ (plan : SyncPlan) (resolutions : List ConflictResolution) (world : World),
      Unharmed context.crypto resolutions path (localSides plan path) plan.conflicts world →
      plan.conflicts.Pairwise (fun first later =>
        Puts resolutions path first → ¬ Overwrites resolutions path later) →
      Holds (sparing context path (localSides plan path)) (fun _ _ => True)
        (completeSync context.crypto plan resolutions) world := by
  constructor
  · intro base now world hlisted
    exact holds_prepareFrom_seen hlisted base now (seen_walked context.crypto path world)
  intro plan resolutions world hspared hpairs
  have hnone : ∀ after, Noticed context.crypto path (localSides plan path) after ∨ True :=
    fun _ => Or.inr trivial
  rw [completeSync, holds_bind]
  apply (holds_applyResolutions_seen hpairs hspared).mono
  intro result resolvedWorld _
  cases result with
  | error error => trivial
  | ok resolved =>
      have huploads := (runUploads_accounted resolved.uploads (plan.failures.map SyncFailure.path ++
        resolved.deferred.map Conflict.path)).weaken fun effect hseals =>
          (hseals.uploads.untouched : ¬ effect.Touches path)
      simp only [holds_bind]
      apply (holds_seen_untouched huploads (hnone resolvedWorld)).mono
      intro uploads uploaded _
      split
      next => trivial
      next =>
        have hbooks := (checkpoint_books context.crypto uploads.holdBack).weaken
          fun effect hbooks => (hbooks.untouched : ¬ effect.Touches path)
        rw [holds_bind]
        apply (holds_seen_untouched hbooks (hnone uploaded)).mono
        intro result after _
        cases result with
        | error error => trivial
        | ok value => trivial

/-! ## Edits that are lost -/

theorem staleWorld_plain : PlainFolder staleWorld.device.folder := by
  intro name file hname
  have hmem := Std.ExtTreeMap.mem_toList_iff_getElem?_eq_some.mpr hname
  have hnames : ∀ item ∈ staleWorld.device.folder.toList, Plain item.1 := by decide
  exact hnames (name, file) hmem

theorem stale_files_are_replaced_as_seen (now : Nat) :
    Holds (sparing sampleContext "a" (walkedSides .sample "a" staleWorld.device.folder))
      (fun result _ => ∀ plan, result = .ok plan → "a" ∈ plan.download.map SyncAction.path →
        walkedSides .sample "a" staleWorld.device.folder ⊆ localSides plan "a")
      (prepareFrom .sample .defaults staleWorld.device.base staleWorld.device.folder now)
      staleWorld ∧
    Holds (sparing sampleContext "c" (localSides stalePlan "c")) (fun _ _ => True)
      (completeSync .sample stalePlan [⟨"c", .keepRemote⟩]) staleWorld := by
  constructor
  · exact (replaces_what_was_seen sampleContext "a").1 staleWorld.device.base now staleWorld
      (ListedAs.of_plain staleWorld_plain)
  · apply (replaces_what_was_seen sampleContext "c").2 stalePlan [⟨"c", .keepRemote⟩] staleWorld
    · left
      intro file hfile
      have hsides : walkedSides .sample "c" staleWorld.device.folder ⊆
          localSides stalePlan "c" := by
        decide +kernel
      obtain ⟨entry, hmem, hentry⟩ := seen_walked .sample "c" staleWorld file hfile
      exact ⟨entry, hsides hmem, hentry⟩
    · have hone : stalePlan.conflicts.length ≤ 1 := by decide +kernel
      cases hconflicts : stalePlan.conflicts with
      | nil => simp
      | cons conflict rest =>
          rw [hconflicts] at hone
          obtain rfl : rest = [] := by simpa using hone
          simp

def replacesSeen (crypto : Crypto) (path : String) (sides : List FileEntry) (effect : Effect)
    (world : World) : Bool :=
  match effect with
  | .writeFile other _ | .deleteLocalFile other =>
      other ≠ path || (world.device.folder[path]?.all fun file => sides.any fun entry =>
        !entry.deleted && entry.hash = crypto.contentHmac file.content)
  | _ => true

theorem replacesSeen_of_replaces {crypto : Crypto} {before after : World} {effect : Effect}
    {reply : effect.Reply} (hreplaces : ReplacesSeen crypto path sides before effect reply after) :
    replacesSeen crypto path sides effect before = true := by
  have hseen : effect.Touches path → (before.device.folder[path]?.all fun file =>
      sides.any fun entry =>
        !entry.deleted && entry.hash = crypto.contentHmac file.content) = true := by
    intro htouches
    rw [Option.all_eq_true]
    intro file hfile
    obtain ⟨entry, hmem, hlive, hhash⟩ := hreplaces htouches file hfile
    rw [List.any_eq_true]
    exact ⟨entry, hmem, by simp [hlive, hhash]⟩
  cases effect with
  | writeFile other content =>
      by_cases hother : other = path
      · simp [replacesSeen, hseen hother]
      · simp [replacesSeen, hother]
  | deleteLocalFile other =>
      by_cases hother : other = path
      · simp [replacesSeen, hseen hother]
      · simp [replacesSeen, hother]
  | _ => rfl

/-- What happens while `a` is on its way: it is edited before it is written. -/
def editWhileDownloading : List EditedEnv :=
  List.replicate 7 ⟨{}, none⟩ ++ [⟨{}, some (staleWorld.device.folder.insert "a" ⟨[3], 2⟩)⟩]

/-- What happens while the plan waits: `c` is edited. -/
def editWhileWaiting : List EditedEnv :=
  [⟨{}, some (staleWorld.device.folder.insert "c" ⟨[3], 2⟩)⟩, ⟨{}, none⟩]

/-- An edit of `a` between the walk and its download is lost, and so is one of `c`
while its conflict waits for the answer. -/
theorem edits_of_stale_files_are_lost :
    (¬ ∀ context : Context, context.crypto.Ideal → ∀ path base now world,
      Holds (editing context (ReplacesSeen context.crypto path
          (walkedSides context.crypto path world.device.folder))) (fun _ _ => True)
        (prepareFrom context.crypto context.ignore base world.device.folder now) world) ∧
    ¬ ∀ context : Context, context.crypto.Ideal → ∀ path start plan world,
      Reaches (Faulty context) (prepareSync context.crypto context.ignore) start (.pure (.ok plan))
        world → ∀ resolutions,
      Holds (editing context (ReplacesSeen context.crypto path (localSides plan path)))
        (fun _ _ => True) (completeSync context.crypto plan resolutions) world := by
  constructor
  · intro hall
    have hchecked := execAll_of_editing
      (fun _ _ _ hreplaces => replacesSeen_of_replaces hreplaces)
      (hall sampleContext sampleContext_ideal.crypto "a" staleWorld.device.base 0 staleWorld)
      editWhileDownloading
    exact absurd hchecked (by decide +kernel)
  · intro hall
    have hchecked := execAll_of_editing
      (fun _ _ _ hreplaces => replacesSeen_of_replaces hreplaces)
      (hall sampleContext sampleContext_ideal.crypto "c" staleWorld stalePlan staleRun.2
        staleRun_reaches [⟨"c", .keepRemote⟩])
      editWhileWaiting
    exact absurd hchecked (by decide +kernel)

end ObSink.Engine
