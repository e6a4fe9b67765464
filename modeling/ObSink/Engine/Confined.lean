import ObSink.Core.CopyNames
import ObSink.Engine.Overwrites
import ObSink.Lib.Posix
import ObSink.Lib.Replies

/-! # Where a sync reads, writes and deletes

A relative path goes from the manifests through the diff to the folder without
being looked at again but by the ignore rules, and an upload that is refused
becomes a conflict of the next round. Where the file operations of a cycle and
of its further rounds may lead, for all that others and the network can make of
their replies. The bookkeeping and the walk are the engine's own; directories
that become empty are no files.
-/

namespace ObSink.Engine

open Prog (Within Tries Yields perform tries_bind tries_pure tries_perform yields_bind yields_pure
  yields_perform within_bind within_pure within_perform exists_yields)

/-- Where the bookkeeping of a vault folder is. -/
def bookkeepingDir : String := ".obsink"

section Locations

variable (same : String → String) (root : List String)

/-- Below the root, and not below the bookkeeping. -/
def InVault (location : List String) : Prop :=
  Posix.Below same root location ∧ ¬ Posix.Below same (root ++ [bookkeepingDir]) location

def ReadsInside (path : String) : Prop :=
  ∀ location, Posix.file? same root path = some location → Posix.Below same root location

def RemovesInside (path : String) : Prop :=
  ∀ location, Posix.file? same root path = some location → InVault same root location

def WritesInside (path : String) : Prop :=
  ∀ location, Posix.written? root path = some location → InVault same root location

instance (location : List String) : Decidable (InVault same root location) :=
  inferInstanceAs (Decidable (_ ∧ _))

instance (path : String) : Decidable (ReadsInside same root path) :=
  decidable_of_iff
    ((Posix.file? same root path).all (fun location => Posix.Below same root location) = true)
    (by simp [ReadsInside, Option.all_eq_true])

instance (path : String) : Decidable (RemovesInside same root path) :=
  decidable_of_iff
    ((Posix.file? same root path).all (fun location => InVault same root location) = true)
    (by simp [RemovesInside, Option.all_eq_true])

instance (path : String) : Decidable (WritesInside same root path) :=
  decidable_of_iff
    ((Posix.written? root path).all (fun location => InVault same root location) = true)
    (by simp [WritesInside, Option.all_eq_true])

/-- Nothing outside the root is read, written or deleted, and nothing of the
bookkeeping written or deleted. -/
def Effect.Confined : Effect → Prop
  | .writeFile path _ => WritesInside same root path
  | .deleteLocalFile path => RemovesInside same root path
  | .statFile path | .sealFile path => ReadsInside same root path
  | _ => True

/-- The same for a path, by its versions in the checkpoint, the folder and the
server's manifest. What is sent may be refused and become a conflict, and so may
its copy. -/
structure PathConfined (path : String) (base here there : Version) : Prop where
  removed : here ≠ there → there ≠ base → there = .gone → RemovesInside same root path
  fetched : here ≠ there → there ≠ base → there ≠ .gone → WritesInside same root path
  sent : here ≠ there → here ≠ base → WritesInside same root path
  copied : here ≠ there → here ≠ base → here ≠ .gone →
    ∀ n, WritesInside same root (conflictCopyPath^[n] path)

end Locations

variable {same : String → String} {root : List String}

theorem WritesInside.removes {path : String} (hwrites : WritesInside same root path) :
    RemovesInside same root path := by
  intro location hfile
  exact hwrites location (Posix.written?_of_file? same hfile)

theorem WritesInside.reads {path : String} (hwrites : WritesInside same root path) :
    ReadsInside same root path := by
  intro location hfile
  exact (hwrites.removes location hfile).1

/-! ## Actions and conflicts -/

section Plans

variable (same root)

structure DownloadConfined (action : SyncAction) : Prop where
  removed : action.kind = .deleteLocal → RemovesInside same root action.path
  fetched : action.kind = .download → WritesInside same root action.path

/-- What a path that is sent can come to: it is written when it was refused, and
from a file here copies are made, of copies as well. -/
structure Spread (path : String) (live : Prop) : Prop where
  writes : WritesInside same root path
  copies : live → ∀ n, WritesInside same root (conflictCopyPath^[n] path)

def UploadConfined (action : SyncAction) : Prop :=
  Spread same root action.path ((action.localEntry.getD {}).deleted = false)

def ConflictConfined (conflict : Conflict) : Prop :=
  Spread same root conflict.path (conflict.localEntry.deleted = false)

/-- A decision of the diff leads nowhere else. -/
def DecisionConfined : Decision → Prop
  | .nothing => True
  | .upload action => UploadConfined same root action
  | .download action => DownloadConfined same root action
  | .conflict conflict => ConflictConfined same root conflict

end Plans

theorem deleted_localOrTombstone (entry base : Option FileEntry) :
    (localOrTombstone entry base).deleted = decide (version entry = .gone) := by
  cases entry with
  | none => simp [localOrTombstone, version]
  | some entry => cases hdeleted : entry.deleted <;> simp [localOrTombstone, version, hdeleted]

theorem downloadConfined_iff (path : String) (localEntry : Option FileEntry)
    (base there : Option FileEntry) :
    DownloadConfined same root
      { path, localEntry
        kind := match version there with
          | .present _ => .download
          | .gone => .deleteLocal
        remoteEntry := some (localOrTombstone there base) } ↔
      (version there = .gone → RemovesInside same root path) ∧
        (version there ≠ .gone → WritesInside same root path) := by
  cases hthere : version there with
  | gone =>
      constructor
      · intro hconfined
        exact ⟨fun _ => hconfined.removed rfl, fun hlive => absurd rfl hlive⟩
      · intro hpath
        exact ⟨fun _ => hpath.1 rfl, fun hkind => (by cases hkind)⟩
  | present hash =>
      constructor
      · intro hconfined
        exact ⟨fun hgone => (by cases hgone), fun _ => hconfined.fetched rfl⟩
      · intro hpath
        exact ⟨fun hkind => (by cases hkind), fun _ => hpath.2 (by simp)⟩

theorem spread_localOrTombstone (path : String) (entry base : Option FileEntry) :
    Spread same root path ((localOrTombstone entry base).deleted = false) ↔
      WritesInside same root path ∧
        (version entry ≠ .gone → ∀ n, WritesInside same root (conflictCopyPath^[n] path)) := by
  have hlive : (localOrTombstone entry base).deleted = false ↔ version entry ≠ .gone := by
    simp [deleted_localOrTombstone]
  rw [hlive]
  constructor
  · intro hspread
    exact ⟨hspread.writes, hspread.copies⟩
  · rintro ⟨hwrites, hcopies⟩
    exact ⟨hwrites, hcopies⟩

/-- A decision is confined as the versions it is made from say. -/
theorem decide3_confined (path : String) (base here there : Option FileEntry) :
    DecisionConfined same root (decide3 path base here there) ↔
      PathConfined same root path (version base) (version here) (version there) := by
  rw [decide3_eq]
  split
  next hagree =>
    constructor
    · intro _
      constructor <;> (intro hdiffers; exact absurd hagree hdiffers)
    · exact fun _ => trivial
  next hdiffers =>
    split
    -- only the server changed: the path is fetched or removed
    next hhere =>
      have hthere : version there ≠ version base := fun heq => hdiffers (hhere.trans heq.symm)
      apply (downloadConfined_iff path here base there).trans
      constructor
      · rintro ⟨hremoved, hfetched⟩
        constructor
        · exact fun _ _ => hremoved
        · exact fun _ _ => hfetched
        · exact fun _ hchanged => absurd hhere hchanged
        · exact fun _ hchanged => absurd hhere hchanged
      · intro hpath
        exact ⟨hpath.removed hdiffers hthere, hpath.fetched hdiffers hthere⟩
    next hhere =>
      split
      -- only the folder changed: the path is sent
      next hthere =>
        apply (spread_localOrTombstone path here base).trans
        constructor
        · rintro ⟨hwrites, hcopies⟩
          constructor
          · exact fun _ hchanged => absurd hthere hchanged
          · exact fun _ hchanged => absurd hthere hchanged
          · exact fun _ _ => hwrites
          · exact fun _ _ => hcopies
        · intro hpath
          exact ⟨hpath.sent hdiffers hhere, hpath.copied hdiffers hhere⟩
      -- both changed: a conflict, which may write and send
      next hthere =>
        apply (spread_localOrTombstone path here base).trans
        constructor
        · rintro ⟨hwrites, hcopies⟩
          constructor
          · exact fun _ _ _ => hwrites.removes
          · exact fun _ _ _ => hwrites
          · exact fun _ _ => hwrites
          · exact fun _ _ => hcopies
        · intro hpath
          exact ⟨hpath.sent hdiffers hhere, hpath.copied hdiffers hhere⟩

/-! ## A confined plan leads nowhere else -/

theorem Effect.Books.confined {effect : Effect} (hbooks : effect.Books) :
    effect.Confined same root := by
  cases effect with
  | writeFile path content => exact hbooks.elim
  | deleteLocalFile path => exact hbooks.elim
  | statFile path => exact hbooks.elim
  | sealFile path => exact hbooks.elim
  | _ => trivial

theorem Effect.Carries.confined {downloads : List SyncAction}
    (hconfined : ∀ action ∈ downloads, DownloadConfined same root action) {effect : Effect}
    (hcarries : effect.Carries downloads) : effect.Confined same root := by
  cases effect with
  | writeFile path content =>
      obtain ⟨action, hmem, hkind, rfl⟩ := hcarries
      exact (hconfined action hmem).fetched hkind
  | deleteLocalFile path =>
      obtain ⟨action, hmem, hkind, rfl⟩ := hcarries
      exact (hconfined action hmem).removed hkind
  | statFile path => exact hcarries.elim
  | sealFile path => exact hcarries.elim
  | _ => trivial

/-- Every upload is confined. -/
def UploadsConfined (same : String → String) (root : List String) (uploads : List SyncAction) :
    Prop :=
  ∀ action ∈ uploads, UploadConfined same root action

/-- Every conflict is confined. -/
def ConflictsConfined (same : String → String) (root : List String) (conflicts : List Conflict) :
    Prop :=
  ∀ conflict ∈ conflicts, ConflictConfined same root conflict

theorem Effect.Seals.confined {uploads : List SyncAction}
    (huploads : UploadsConfined same root uploads) {effect : Effect}
    (hseals : effect.Seals uploads) : effect.Confined same root := by
  cases effect with
  | sealFile path =>
      obtain ⟨action, hmem, _, rfl⟩ := hseals
      exact (huploads action hmem).writes.reads
  | writeFile path content => exact hseals.elim
  | deleteLocalFile path => exact hseals.elim
  | statFile path => exact hseals.elim
  | _ => trivial

theorem UploadsConfined.concat {uploads : List SyncAction}
    (huploads : UploadsConfined same root uploads) {action : SyncAction}
    (haction : UploadConfined same root action) :
    UploadsConfined same root (uploads ++ [action]) := by
  intro found hfound
  rcases List.mem_append.mp hfound with hold | hnew
  · exact huploads found hold
  · exact List.mem_singleton.mp hnew ▸ haction

theorem ConflictsConfined.append {first second : List Conflict}
    (hfirst : ConflictsConfined same root first) (hsecond : ConflictsConfined same root second) :
    ConflictsConfined same root (first ++ second) := by
  intro conflict hmem
  rcases List.mem_append.mp hmem with hleft | hright
  · exact hfirst conflict hleft
  · exact hsecond conflict hright

/-- The local side of a conflict, as an upload. -/
theorem ConflictConfined.upload {conflict : Conflict}
    (hconfined : ConflictConfined same root conflict) :
    UploadConfined same root (conflictToUpload conflict) :=
  hconfined

/-- What a refused upload leaves for the next round. -/
theorem UploadConfined.refused {action : SyncAction} (hconfined : UploadConfined same root action)
    (remote : FileEntry) :
    ConflictConfined same root ⟨action.path, action.localEntry.getD {}, remote⟩ :=
  hconfined

/-- A copy of a file here, as an upload. -/
theorem ConflictConfined.copy {conflict : Conflict}
    (hconfined : ConflictConfined same root conflict)
    (hlive : conflict.localEntry.deleted = false) {action : SyncAction}
    (hpath : action.path = conflictCopyPath conflict.path) : UploadConfined same root action := by
  have hcopies : ∀ n, WritesInside same root (conflictCopyPath^[n] action.path) := by
    intro n
    rw [hpath, ← Function.iterate_succ_apply]
    exact hconfined.copies hlive (n + 1)
  exact ⟨hcopies 0, fun _ => hcopies⟩

theorem fetchTo_confined (crypto : Crypto) (source : String) {target : String}
    (hwrites : WritesInside same root target) :
    Within (Effect.Confined same root) (fun _ => True) (fetchTo crypto source target) := by
  rw [fetchTo, within_bind, within_perform]
  refine ⟨trivial, ?_⟩
  intro reply
  cases reply with
  | error error => trivial
  | ok blob =>
      simp only [decryptAndWrite]
      split
      next => trivial
      next => exact ⟨hwrites, fun _ => trivial⟩

theorem applyKeepRemote_confined (crypto : Crypto) {conflict : Conflict}
    (hconfined : ConflictConfined same root conflict) :
    Within (Effect.Confined same root) (fun _ => True) (applyKeepRemote crypto conflict) := by
  unfold applyKeepRemote
  split
  next hgone => exact ⟨hconfined.writes.removes, fun _ => trivial⟩
  next hlive => exact fetchTo_confined crypto _ hconfined.writes

theorem both_live {choice : ConflictResolutionChoice} {conflict : Conflict}
    (hboth : effectiveChoice choice conflict = .keepBoth) :
    conflict.localEntry.deleted = false ∧ conflict.remoteEntry.deleted = false := by
  cases choice with
  | keepBoth =>
      simp only [effectiveChoice] at hboth
      split at hboth
      next => cases hboth
      next hthere =>
        split at hboth
        next => cases hboth
        next hhere => exact ⟨by simpa using hhere, by simpa using hthere⟩
  | _ => cases hboth

/-- What the answers have left to upload, and for later. -/
structure Resolved.Confined (same : String → String) (root : List String) (resolved : Resolved) :
    Prop where
  uploads : UploadsConfined same root resolved.uploads
  deferred : ConflictsConfined same root resolved.deferred

/-- The answer to one conflict. -/
theorem applyResolution_confined (crypto : Crypto) (resolutions : List ConflictResolution)
    {conflict : Conflict} (hconfined : ConflictConfined same root conflict) {resolved : Resolved}
    (hresolved : resolved.Confined same root) :
    Within (Effect.Confined same root)
      (fun result => ∀ next, result = .ok next → next.Confined same root)
      (applyResolution crypto resolutions resolved conflict) := by
  unfold applyResolution
  split
  next => simp
  next choice _ =>
    split
    next =>
      intro next hnext
      obtain rfl := Except.ok.inj hnext
      refine ⟨hresolved.uploads, hresolved.deferred.append ?_⟩
      intro found hfound
      exact List.mem_singleton.mp hfound ▸ hconfined
    next =>
      intro next hnext
      obtain rfl := Except.ok.inj hnext
      exact ⟨hresolved.uploads.concat hconfined.upload, hresolved.deferred⟩
    next =>
      rw [within_bind]
      apply (applyKeepRemote_confined crypto hconfined).mono
      intro reply _
      cases reply with
      | error error => simp
      | ok value =>
          intro next hnext
          obtain rfl := Except.ok.inj hnext
          exact hresolved
    next hboth =>
      -- the copy is read for an upload of its own, after the one of the conflict
      have hlive := (both_live hboth).1
      have hcopy := hconfined.copies hlive 1
      rw [within_bind, writeConflictCopy, within_bind]
      apply (fetchTo_confined crypto conflict.path hcopy).mono
      intro reply _
      cases reply with
      | error error => simp
      | ok value =>
          simp only [within_pure, buildUploadActionForPath, within_bind, within_perform]
          refine ⟨WritesInside.reads hcopy, ?_⟩
          intro reply
          cases reply with
          | error error => simp
          | ok file =>
              intro next hnext
              obtain rfl := Except.ok.inj hnext
              refine ⟨?_, hresolved.deferred⟩
              rw [← List.singleton_append, ← List.append_assoc]
              exact (hresolved.uploads.concat hconfined.upload).concat (hconfined.copy hlive rfl)

theorem applyResolutions_confined (crypto : Crypto) (resolutions : List ConflictResolution)
    {conflicts : List Conflict} (hconfined : ConflictsConfined same root conflicts)
    {resolved : Resolved} (hresolved : resolved.Confined same root) :
    Within (Effect.Confined same root)
      (fun result => ∀ final, result = .ok final → final.Confined same root)
      (applyResolutions crypto resolutions conflicts resolved) := by
  induction conflicts generalizing resolved with
  | nil =>
      intro final hfinal
      obtain rfl := Except.ok.inj hfinal
      exact hresolved
  | cons conflict rest ih =>
      rw [applyResolutions, within_bind]
      apply (applyResolution_confined crypto resolutions (hconfined conflict List.mem_cons_self)
        hresolved).mono
      intro result hresult
      cases result with
      | error error => simp
      | ok next =>
          exact ih (fun later hlater => hconfined later (List.mem_cons_of_mem _ hlater))
            (hresult next rfl)

/-- A late conflict is an upload that was refused. -/
theorem UploadOutcome.After.confined {uploads : List SyncAction}
    (huploads : UploadsConfined same root uploads) {start outcome : UploadOutcome}
    (hafter : start.After uploads outcome)
    (hstart : ConflictsConfined same root start.lateConflicts) :
    ConflictsConfined same root outcome.lateConflicts := by
  induction hafter with
  | refl => exact hstart
  | tail _ hstep ih =>
      obtain ⟨action, hmem, hnotes⟩ := hstep
      cases hnotes with
      | done => exact ih
      | failed message fatal => exact ih
      | refused remote =>
          refine ih.append ?_
          intro conflict hconflict
          obtain rfl := List.mem_singleton.mp hconflict
          exact (huploads action hmem).refused remote

/-- A plan whose uploads and conflicts are confined. -/
structure PlanConfined (same : String → String) (root : List String) (plan : SyncPlan) :
    Prop where
  upload : UploadsConfined same root plan.upload
  conflicts : ConflictsConfined same root plan.conflicts

/-- A round leads nowhere else, and leaves confined conflicts. -/
theorem completeSync_confined (crypto : Crypto) {plan : SyncPlan}
    (hplan : PlanConfined same root plan) (resolutions : List ConflictResolution) :
    Within (Effect.Confined same root)
      (fun result => ∀ found, result = .ok found → ConflictsConfined same root found.conflicts)
      (completeSync crypto plan resolutions) := by
  have hstart : (⟨plan.upload, []⟩ : Resolved).Confined same root :=
    ⟨hplan.upload, fun conflict hmem => by cases hmem⟩
  rw [completeSync, within_bind]
  apply (applyResolutions_confined crypto resolutions hplan.conflicts hstart).mono
  intro result hresult
  cases result with
  | error error => simp
  | ok resolved =>
      obtain ⟨huploads, hdeferred⟩ := hresult resolved rfl
      simp only [within_bind]
      apply ((runUploads_after resolved.uploads _).weaken
        fun effect hseals => hseals.confined huploads).mono
      intro outcome hafter
      have hlate : ConflictsConfined same root (resolved.deferred ++ outcome.lateConflicts) :=
        hdeferred.append (hafter.confined huploads fun conflict hmem => by cases hmem)
      split
      next =>
        intro found hfound
        obtain rfl := Except.ok.inj hfound
        exact hlate
      next =>
        rw [within_bind]
        apply ((checkpoint_books crypto outcome.holdBack).weaken
          fun effect hbooks => hbooks.confined).mono
        intro result _
        cases result with
        | error error =>
            intro found hfound
            obtain rfl := Except.ok.inj hfound
            exact hlate
        | ok value =>
            intro found hfound
            obtain rfl := Except.ok.inj hfound
            exact hlate

/-! ## What a cycle finds -/

/-- The replies of a cycle that finds this local state and one of these manifests,
in its cache or with the server, which answers a request without a tag in full. -/
def Finds (crypto : Crypto) (base : Manifest) (folder : Folder) (now : Nat)
    (served : Manifest → Prop) : (effect : Effect) → effect.Reply → Prop
  | .loadLocalState, .ok loaded => loaded = (base, folder, now)
  | .loadRemoteCache, some cache => served cache.manifest
  | .getManifest _, .ok (.rows rows _) =>
      ∀ manifest, decodeManifest crypto rows = .ok manifest → served manifest
  | .getManifest none, .ok .notModified => False
  | _, _ => True

section Cycle

variable {crypto : Crypto} {ignore : IgnoreRules} {base : Manifest} {folder : Folder} {now : Nat}
  {served : Manifest → Prop}

theorem finds_something (effect : Effect) :
    ∃ reply, Finds crypto base folder now served effect reply := by
  cases effect with
  | loadLocalState => exact ⟨.error notFound, trivial⟩
  | loadRemoteCache => exact ⟨none, trivial⟩
  | getManifest ifNoneMatch =>
      cases ifNoneMatch with
      | none => exact ⟨.error .unauthorized, trivial⟩
      | some etag => exact ⟨.error .unauthorized, trivial⟩
  | pick => exact ⟨0, trivial⟩
  | ask conflicts => exact ⟨[], trivial⟩
  | sendBatch => exact ⟨.ok (), trivial⟩
  | applyOp op => exact ⟨.ok .alreadyThere, trivial⟩
  | receiveBatch => exact ⟨.ok (), trivial⟩
  | readBatch => exact ⟨.ok (), trivial⟩
  | getFile path => exact ⟨.error .unauthorized, trivial⟩
  | _ => exact ⟨.error notFound, trivial⟩

theorem served_of_getManifest {ifNoneMatch : Option String} {manifest : Manifest}
    {etag : Option String}
    (hyields : Yields (Finds crypto base folder now served) (.ok (.modified manifest etag))
      (getManifestIfChanged crypto ifNoneMatch)) : served manifest := by
  rw [getManifestIfChanged, yields_bind] at hyields
  obtain ⟨reply, hfinds, hresult⟩ := hyields
  rw [yields_perform] at hfinds
  split at hresult
  next => cases hresult
  next => cases hresult
  next rows tag =>
    split at hresult
    next => cases hresult
    next decoded hdecode =>
      cases hresult
      cases ifNoneMatch with
      | none => exact hfinds _ hdecode
      | some tag => exact hfinds _ hdecode

/-- A manifest that a cycle works with was served. -/
theorem served_of_fetch {remote : Manifest}
    (hyields : Yields (Finds crypto base folder now served) (.ok remote)
      (fetchRemoteManifest crypto)) : served remote := by
  rw [fetchRemoteManifest, yields_bind] at hyields
  obtain ⟨found, hfound, hyields⟩ := hyields
  rw [yields_perform] at hfound
  have hcache : ∀ cache, (found.filter fun cache => cache.etag.isSome) = some cache →
      served cache.manifest := by
    intro cache hcache
    obtain ⟨rfl, _⟩ := Option.filter_eq_some_iff.mp hcache
    exact hfound
  generalize found.filter (fun cache => cache.etag.isSome) = cached at hcache hyields
  simp only [yields_bind] at hyields
  obtain ⟨answer, hanswer, hyields⟩ := hyields
  split at hyields
  next => cases hyields
  next =>
    split at hyields
    next cache =>
      cases hyields
      exact hcache cache rfl
    next =>
      -- a 304 with no cache left: it asks again without a tag
      rw [yields_bind] at hyields
      obtain ⟨again, hagain, hyields⟩ := hyields
      split at hyields
      next => cases hyields
      next manifest etag =>
        cases hyields
        exact served_of_getManifest hagain
      next =>
        rw [getManifestIfChanged, yields_bind] at hagain
        obtain ⟨reply, hfinds, hagain⟩ := hagain
        rw [yields_perform] at hfinds
        split at hagain
        next => cases hagain
        next => exact hfinds.elim
        next =>
          split at hagain <;> cases hagain
  next manifest etag =>
    have hserved := served_of_getManifest hanswer
    split at hyields
    next =>
      rw [yields_bind] at hyields
      obtain ⟨saved, _, hyields⟩ := hyields
      cases hyields
      exact hserved
    next =>
      cases hyields
      exact hserved

/-- Every manifest that is served may be the one, out of the cache. -/
theorem yields_fetch {remote : Manifest} (hserved : served remote) :
    Yields (Finds crypto base folder now served) (.ok remote) (fetchRemoteManifest crypto) := by
  have hcached : Yields (Finds crypto base folder now served) (some ⟨some "", remote⟩)
      (perform Effect.loadRemoteCache) := yields_perform.mpr hserved
  have hanswer : Yields (Finds crypto base folder now served) (.ok .notModified)
      (perform (Effect.getManifest (some ""))) := yields_perform.mpr trivial
  have hsame : Yields (Finds crypto base folder now served) (.ok .notModified)
      (getManifestIfChanged crypto (some "")) := by
    rw [getManifestIfChanged]
    exact hanswer.bind rfl
  rw [fetchRemoteManifest]
  apply hcached.bind
  exact hsame.bind rfl

/-! ## Where a plan may lead -/

theorem tries_deleteAll {actions : List SyncAction} {action : SyncAction}
    (hmem : action ∈ actions) :
    Tries (Finds crypto base folder now served) (.deleteLocalFile action.path)
      (deleteAll actions) := by
  induction actions with
  | nil => cases hmem
  | cons first rest ih =>
      rw [deleteAll]
      rcases List.mem_cons.mp hmem with rfl | hrest
      · exact (tries_perform.mpr rfl).bind _
      · have hdone : Yields (Finds crypto base folder now served) (.ok ())
            (perform (Effect.deleteLocalFile first.path)) := yields_perform.mpr trivial
        apply hdone.tries
        exact (ih hrest).bind _

/-- A download that is served `blob` goes a step further on, or is over and was
another one, or is written. -/
theorem fetchOne_served {blob plaintext : Bytes} (hreads : crypto.decrypt blob = .ok plaintext)
    {action : SyncAction} (hkind : action.kind = .download) {flight : Flight}
    (hserved : ∀ found, flight.stage = .fetched found → found = blob) :
    (∃ stage, Yields (Finds crypto base folder now served) (.goOn stage)
        (fetchOne crypto false flight) ∧
      stage.weight < flight.stage.weight ∧ ∀ found, stage = .fetched found → found = blob) ∨
    (flight.action ≠ action ∧ Yields (Finds crypto base folder now served) (.done none)
      (fetchOne crypto false flight)) ∨
    Tries (Finds crypto base folder now served) (.writeFile action.path plaintext)
      (fetchOne crypto false flight) := by
  obtain ⟨own, stage⟩ := flight
  cases stage with
  | waiting =>
      by_cases hdownload : own.kind = .download
      · refine Or.inl ⟨.started, ?_, by simp [Stage.weight], by simp⟩
        simp only [fetchOne, hdownload, ne_eq, not_true_eq_false, Bool.false_eq_true, or_self,
          ↓reduceIte]
        rfl
      · refine Or.inr (Or.inl ⟨?_, ?_⟩)
        · rintro rfl
          exact hdownload hkind
        · simp only [fetchOne, hdownload, ne_eq, not_false_eq_true, true_or, ↓reduceIte]
          rfl
  | started =>
      have hfetched : Yields (Finds crypto base folder now served) (.ok blob)
          (perform (Effect.getFile own.path)) := yields_perform.mpr trivial
      refine Or.inl ⟨.fetched blob, ?_, by simp [Stage.weight], by simp⟩
      simp only [fetchOne]
      exact hfetched.bind rfl
  | fetched found =>
      obtain rfl := hserved found rfl
      by_cases hown : own = action
      · subst hown
        refine Or.inr (Or.inr ?_)
        simp only [fetchOne, hreads]
        exact (tries_perform.mpr rfl).bind _
      · have hwritten : Yields (Finds crypto base folder now served) (.ok ())
            (perform (Effect.writeFile own.path plaintext)) := yields_perform.mpr trivial
        refine Or.inr (Or.inl ⟨hown, ?_⟩)
        simp only [fetchOne, hreads]
        exact hwritten.bind rfl

/-- The downloads one after the other, every one of them served the same blob. -/
theorem tries_fetchLoop {blob plaintext : Bytes} (hreads : crypto.decrypt blob = .ok plaintext)
    {action : SyncAction} (hkind : action.kind = .download) {fuel : Nat} {pending : List SyncAction}
    {inFlight : List Flight} (failures : List SyncFailure)
    (hfuel : weightOf (openFlights pending inFlight) ≤ fuel)
    (hserved : ∀ flight ∈ openFlights pending inFlight, ∀ found, flight.stage = .fetched found →
      found = blob)
    (hmem : ∃ flight ∈ openFlights pending inFlight, flight.action = action) :
    Tries (Finds crypto base folder now served) (.writeFile action.path plaintext)
      (fetchLoop crypto fuel pending inFlight false failures) := by
  induction fuel generalizing pending inFlight with
  | zero =>
      obtain ⟨flight, hflight, _⟩ := hmem
      rw [eq_nil_of_weightOf hfuel] at hflight
      cases hflight
  | succ fuel ih =>
      have hopen := openFlights_take pending inFlight (downloadConcurrency - inFlight.length)
      have hidle := @openFlights_eq_nil pending inFlight
      rw [fetchLoop]
      simp only
      generalize inFlight ++ (pending.take (downloadConcurrency - inFlight.length)).map
        (fun action => (⟨action, .waiting⟩ : Flight)) = started at hopen hidle ⊢
      generalize pending.drop (downloadConcurrency - inFlight.length) = later at hopen ⊢
      cases started with
      | nil =>
          obtain ⟨flight, hflight, _⟩ := hmem
          rw [hidle rfl] at hflight
          cases hflight
      | cons first others =>
          have hall : openFlights pending inFlight = first :: openFlights later others := hopen.symm
          rw [hall, weightOf_cons] at hfuel
          rw [hall] at hserved hmem
          have hrest : ∀ flight ∈ openFlights later others, ∀ found,
              flight.stage = .fetched found → found = blob :=
            fun flight hflight => hserved flight (List.mem_cons_of_mem _ hflight)
          have hothers : first.action ≠ action →
              ∃ flight ∈ openFlights later others, flight.action = action := by
            intro hne
            obtain ⟨flight, hflight, heq⟩ := hmem
            rcases List.mem_cons.mp hflight with rfl | hlater
            · exact absurd heq hne
            · exact ⟨flight, hlater, heq⟩
          have hpick : Yields (Finds crypto base folder now served) 0 (perform Effect.pick) :=
            yields_perform.mpr trivial
          simp only [List.isEmpty_cons, Bool.false_eq_true, ↓reduceIte]
          -- the pick of index 0 takes the first in flight
          apply hpick.tries
          simp only [List.length_cons, Nat.zero_mod, List.getElem?_cons_zero]
          rcases fetchOne_served hreads hkind (hserved first List.mem_cons_self) with
            ⟨stage, hstep, hweight, hstage⟩ | ⟨hne, hstep⟩ | hwritten
          · -- the first one, a step further on
            have hnext : openFlights later (⟨first.action, stage⟩ :: others) =
                ⟨first.action, stage⟩ :: openFlights later others := rfl
            apply hstep.tries
            apply ih
            · change weightOf (openFlights later (⟨first.action, stage⟩ :: others)) ≤ fuel
              rw [hnext, weightOf_cons]
              simp only
              omega
            · change ∀ flight ∈ openFlights later (⟨first.action, stage⟩ :: others), _
              rw [hnext]
              intro flight hflight
              rcases List.mem_cons.mp hflight with rfl | hlater
              · exact hstage
              · exact hrest flight hlater
            · change ∃ flight ∈ openFlights later (⟨first.action, stage⟩ :: others), _
              rw [hnext]
              by_cases hown : first.action = action
              · exact ⟨_, List.mem_cons_self, hown⟩
              · obtain ⟨flight, hlater, heq⟩ := hothers hown
                exact ⟨flight, List.mem_cons_of_mem _ hlater, heq⟩
          · -- the first one is over
            apply hstep.tries
            apply ih _ hrest (hothers hne)
            have hpos := first.stage.weight_pos
            change weightOf (openFlights later others) ≤ fuel
            omega
          · exact hwritten.bind _

theorem tries_applyDownloads_delete {downloads : List SyncAction} {action : SyncAction}
    (hmem : action ∈ downloads) (hkind : action.kind = .deleteLocal) :
    Tries (Finds crypto base folder now served) (.deleteLocalFile action.path)
      (applyDownloads crypto downloads) := by
  rw [applyDownloads]
  apply Tries.bind
  apply tries_deleteAll
  simp [hmem, hkind]

theorem tries_applyDownloads_write {blob plaintext : Bytes}
    (hreads : crypto.decrypt blob = .ok plaintext) {downloads : List SyncAction}
    {action : SyncAction} (hmem : action ∈ downloads) (hkind : action.kind = .download) :
    Tries (Finds crypto base folder now served) (.writeFile action.path plaintext)
      (applyDownloads crypto downloads) := by
  rw [applyDownloads]
  obtain ⟨deleted, hdeleted⟩ := exists_yields finds_something
    (deleteAll (downloads.filter fun action => action.kind = .deleteLocal))
  apply hdeleted.tries
  apply Tries.bind
  apply tries_fetchLoop hreads hkind
  · rw [weightOf_waiting]
  · intro flight hflight found hfound
    rw [openFlights, List.nil_append] at hflight
    obtain ⟨later, _, rfl⟩ := List.mem_map.mp hflight
    cases hfound
  · exact ⟨⟨action, .waiting⟩, by simp [openFlights, hmem, hkind], rfl⟩

/-! ## A round that is refused -/

/-- Kinds that a batch carries. -/
def IsSent (action : SyncAction) : Prop :=
  action.kind = .upload ∨ action.kind = .deleteRemote

/-- What a refusal of an upload leaves, with this entry at the server. -/
def refusedWith (remote : FileEntry) (action : SyncAction) : Conflict :=
  ⟨action.path, action.localEntry.getD {}, remote⟩

/-- Every file can be read. -/
theorem yields_prepareBatch (actions : List SyncAction) (outcome : UploadOutcome) :
    ∃ members after, Yields (Finds crypto base folder now served) (members, after)
        (prepareBatch actions outcome) ∧
      after.lateConflicts = outcome.lateConflicts ∧
      ∀ action ∈ actions, IsSent action → action ∈ members.map Prod.fst := by
  induction actions generalizing outcome with
  | nil => exact ⟨[], outcome, rfl, rfl, by simp⟩
  | cons action rest ih =>
      by_cases hsends : IsSent action
      · obtain ⟨members, after, hyields, hlate, hmembers⟩ := ih outcome
        obtain ⟨op, hop⟩ : ∃ op, Yields (Finds crypto base folder now served) (.ok (some op))
            (prepareBatchOp action) := by
          unfold prepareBatchOp
          rcases hsends with hkind | hkind
          · have hsealed : Yields (Finds crypto base folder now served) (.ok [])
                (perform (Effect.sealFile action.path)) := yields_perform.mpr trivial
            refine ⟨.put action.path (parentHash action)
              ((action.localEntry.map FileEntry.hash).getD "") [], ?_⟩
            simp only [hkind]
            exact hsealed.bind rfl
          · refine ⟨.delete action.path (parentHash action), ?_⟩
            simp only [hkind]
            exact rfl
        refine ⟨(action, op) :: members, after, ?_, hlate, ?_⟩
        · rw [prepareBatch]
          exact hop.bind (hyields.bind rfl)
        · intro found hfound hkind
          rcases List.mem_cons.mp hfound with rfl | hrest
          · exact List.mem_cons_self
          · exact List.mem_cons_of_mem _ (hmembers found hrest hkind)
      · -- nothing to send counts as done
        obtain ⟨members, after, hyields, hlate, hmembers⟩ :=
          ih { outcome with succeeded := outcome.succeeded + 1 }
        have hnone : Yields (Finds crypto base folder now served) (.ok none)
            (prepareBatchOp action) := by
          unfold prepareBatchOp
          cases hkind : action.kind with
          | upload => exact absurd (Or.inl hkind) hsends
          | deleteRemote => exact absurd (Or.inr hkind) hsends
          | download => exact rfl
          | deleteLocal => exact rfl
        refine ⟨members, after, ?_, hlate, ?_⟩
        · rw [prepareBatch]
          exact hnone.bind hyields
        · intro found hfound hkind
          rcases List.mem_cons.mp hfound with rfl | hrest
          · exact absurd hkind hsends
          · exact hmembers found hrest hkind

/-- The answer that refuses an operation. -/
def refusal (remote : FileEntry) (op : BatchOp) : BatchOperationResult :=
  ⟨op.path, 409, some ⟨op.path, some remote⟩⟩

theorem yields_applyOperations (remote : FileEntry) (ops : List BatchOp) :
    Yields (Finds crypto base folder now served) (.ok (ops.map (refusal remote)))
      (applyOperations ops) := by
  induction ops with
  | nil => exact rfl
  | cons op rest ih =>
      have hrefused : Yields (Finds crypto base folder now served)
          (.error (.conflict op.path (some remote))) (perform (Effect.applyOp op)) :=
        yields_perform.mpr trivial
      rw [applyOperations]
      exact hrefused.bind (ih.bind rfl)

/-- Every operation of a batch is refused. -/
theorem yields_batch (remote : FileEntry) (ops : List BatchOp) :
    Yields (Finds crypto base folder now served) (.ok (ops.map (refusal remote)))
      (batch ops maxAttempts) := by
  have hsent : Yields (Finds crypto base folder now served) (.ok ()) (perform Effect.sendBatch) :=
    yields_perform.mpr trivial
  have hreceived : Yields (Finds crypto base folder now served) (.ok ())
      (perform Effect.receiveBatch) := yields_perform.mpr trivial
  have hread : Yields (Finds crypto base folder now served) (.ok ()) (perform Effect.readBatch) :=
    yields_perform.mpr trivial
  have honce : Yields (Finds crypto base folder now served)
      (.inr (.ok (ops.map (refusal remote)))) (sendBatchOnce ops) := by
    rw [sendBatchOnce]
    refine hsent.bind ((yields_applyOperations remote ops).bind (hreceived.bind (hread.bind ?_)))
    simp
  exact honce.bind rfl

theorem accountResults_refusal (remote : FileEntry) (members : List (SyncAction × BatchOp))
    (outcome : UploadOutcome) :
    ∃ after, accountResults ((members.map Prod.fst).zip ((members.map Prod.snd).map
        (refusal remote))) outcome = (after, false) ∧
      after.lateConflicts =
        outcome.lateConflicts ++ (members.map Prod.fst).map (refusedWith remote) := by
  induction members generalizing outcome with
  | nil => exact ⟨outcome, rfl, by simp⟩
  | cons member rest ih =>
      obtain ⟨after, hafter, hlate⟩ := ih (accountResult outcome member.1
        (refusal remote member.2)).1
      refine ⟨after, ?_, ?_⟩
      · simp only [List.map_cons, List.zip_cons_cons, accountResults, hafter]
        rfl
      · rw [hlate]
        simp [accountResult, refusal, refusedWith]

theorem yields_runBatch (remote : FileEntry) (actions : List SyncAction)
    (outcome : UploadOutcome) :
    ∃ after, Yields (Finds crypto base folder now served) (after, false)
        (runBatch actions outcome) ∧
      outcome.lateConflicts ⊆ after.lateConflicts ∧
      ∀ action ∈ actions, IsSent action → refusedWith remote action ∈ after.lateConflicts := by
  obtain ⟨members, prepared, hprepared, hsame, hmembers⟩ :=
    @yields_prepareBatch crypto base folder now served actions outcome
  rw [runBatch]
  cases hempty : members.isEmpty with
  | true =>
      obtain rfl := List.isEmpty_iff.mp hempty
      refine ⟨prepared, hprepared.bind rfl, by rw [hsame]; exact List.Subset.refl _, ?_⟩
      intro action hmem hsends
      cases hmembers action hmem hsends
  | false =>
      obtain ⟨after, haccount, hlate⟩ := accountResults_refusal remote members prepared
      refine ⟨after, hprepared.bind ?_, ?_, ?_⟩
      · simp only [hempty, Bool.false_eq_true, ↓reduceIte]
        refine (yields_batch remote (members.map Prod.snd)).bind ?_
        simp only [haccount]
        exact rfl
      · rw [hlate, hsame]
        exact List.subset_append_left _ _
      · intro action hmem hsends
        rw [hlate]
        exact List.mem_append_right _ (List.mem_map_of_mem (hmembers action hmem hsends))

/-- Every upload is refused, with this entry at the server. -/
theorem yields_runUploads (remote : FileEntry) (uploads : List SyncAction) (held : List String) :
    ∃ outcome, Yields (Finds crypto base folder now served) outcome (runUploads uploads held) ∧
      ∀ action ∈ uploads, IsSent action → refusedWith remote action ∈ outcome.lateConflicts := by
  have hloop : ∀ (groups : List (List SyncAction)) (outcome : UploadOutcome),
      ∃ after, Yields (Finds crypto base folder now served) after (runBatches groups outcome) ∧
        outcome.lateConflicts ⊆ after.lateConflicts ∧
        ∀ actions ∈ groups, ∀ action ∈ actions, IsSent action →
          refusedWith remote action ∈ after.lateConflicts := by
    intro groups
    induction groups with
    | nil => exact fun outcome => ⟨outcome, rfl, List.Subset.refl _, by simp⟩
    | cons actions rest ih =>
        intro outcome
        obtain ⟨middle, hfirst, hkept, hown⟩ :=
          @yields_runBatch crypto base folder now served remote actions outcome
        obtain ⟨after, hrest, hgrows, hlater⟩ := ih middle
        refine ⟨after, ?_, List.Subset.trans hkept hgrows, ?_⟩
        · rw [runBatches]
          exact hfirst.bind hrest
        · intro group hgroup action hmem hsends
          rcases List.mem_cons.mp hgroup with rfl | hgroup
          · exact hgrows (hown action hmem hsends)
          · exact hlater group hgroup action hmem hsends
  obtain ⟨outcome, hyields, _, hrefused⟩ := hloop (batches uploads) ⟨0, [], [], held⟩
  refine ⟨outcome, hyields, fun action hmem hsends => ?_⟩
  have hflat := chunkUploads_flatMap uploads
    fun action => (action.localEntry.map FileEntry.size).getD 0
  rw [← hflat, List.mem_flatMap] at hmem
  obtain ⟨range, hrange, hslice⟩ := hmem
  exact hrefused _ (List.mem_map.mpr ⟨range, hrange, rfl⟩) action hslice hsends

/-! ## Answers that are carried out -/

/-- The same answer for every conflict. -/
def answerAll (conflicts : List Conflict) (choice : ConflictResolutionChoice) :
    List ConflictResolution :=
  conflicts.map fun conflict => ⟨conflict.path, choice⟩

theorem resolutionFor_answerAll {conflicts : List Conflict} {conflict : Conflict}
    (hmem : conflict ∈ conflicts) (choice : ConflictResolutionChoice) :
    resolutionFor (answerAll conflicts choice) conflict.path = some choice := by
  have hsame : ∀ found ∈ (answerAll conflicts choice).filter
      (fun resolution => resolution.path = conflict.path), found.choice = choice := by
    intro found hfound
    obtain ⟨other, _, rfl⟩ := List.mem_map.mp (List.mem_filter.mp hfound).1
    rfl
  have hsome : (⟨conflict.path, choice⟩ : ConflictResolution) ∈ (answerAll conflicts choice).filter
      (fun resolution => resolution.path = conflict.path) := by
    rw [List.mem_filter]
    exact ⟨List.mem_map.mpr ⟨conflict, hmem, rfl⟩, by simp⟩
  unfold resolutionFor
  cases hlast : ((answerAll conflicts choice).filter
      (fun resolution => resolution.path = conflict.path)).getLast? with
  | none => simp [List.getLast?_eq_none_iff.mp hlast] at hsome
  | some last => rw [Option.map_some, hsame last (List.mem_of_getLast? hlast)]

/-- What an answer to a conflict adds to the uploads. -/
structure AnswerAdds (choice : ConflictResolutionChoice) (conflict : Conflict)
    (uploads : List SyncAction) : Prop where
  kept : effectiveChoice choice conflict = .keepLocal → conflictToUpload conflict ∈ uploads
  copied : effectiveChoice choice conflict = .keepBoth →
    ∃ copy ∈ uploads, copy.kind = .upload ∧ copy.path = conflictCopyPath conflict.path ∧
      (copy.localEntry.getD {}).deleted = false

theorem AnswerAdds.mono {choice : ConflictResolutionChoice} {conflict : Conflict}
    {uploads more : List SyncAction} (hadds : AnswerAdds choice conflict uploads)
    (hmore : uploads ⊆ more) : AnswerAdds choice conflict more where
  kept := fun hchoice => hmore (hadds.kept hchoice)
  copied := fun hchoice => by
    obtain ⟨copy, hmem, hcopy⟩ := hadds.copied hchoice
    exact ⟨copy, hmore hmem, hcopy⟩

section Answers

variable {blob plaintext : Bytes} (hreads : crypto.decrypt blob = .ok plaintext)

include hreads

theorem tries_fetchTo (source target : String) :
    Tries (Finds crypto base folder now served) (.writeFile target plaintext)
      (fetchTo crypto source target) := by
  have hfetched : Yields (Finds crypto base folder now served) (.ok blob)
      (perform (Effect.getFile source)) := yields_perform.mpr trivial
  rw [fetchTo]
  apply hfetched.tries
  simp only [decryptAndWrite, hreads]
  exact tries_perform.mpr rfl

theorem yields_fetchTo (source target : String) :
    Yields (Finds crypto base folder now served) (.ok ()) (fetchTo crypto source target) := by
  have hfetched : Yields (Finds crypto base folder now served) (.ok blob)
      (perform (Effect.getFile source)) := yields_perform.mpr trivial
  rw [fetchTo]
  apply hfetched.bind
  simp only [decryptAndWrite, hreads]
  exact yields_perform.mpr trivial

/-- Any answer to a conflict can be carried out. -/
theorem yields_applyResolution {resolutions : List ConflictResolution} {conflict : Conflict}
    {choice : ConflictResolutionChoice}
    (hchoice : resolutionFor resolutions conflict.path = some choice) (resolved : Resolved) :
    ∃ next, Yields (Finds crypto base folder now served) (.ok next)
        (applyResolution crypto resolutions resolved conflict) ∧
      resolved.uploads ⊆ next.uploads ∧ AnswerAdds choice conflict next.uploads := by
  simp only [applyResolution, hchoice]
  cases heffective : effectiveChoice choice conflict with
  | defer =>
      exact ⟨_, rfl, List.Subset.refl _, by simp [heffective], by simp [heffective]⟩
  | keepLocal =>
      exact ⟨_, rfl, List.subset_append_left _ _, by simp, by simp [heffective]⟩
  | keepRemote =>
      have hdone : Yields (Finds crypto base folder now served) (.ok ())
          (applyKeepRemote crypto conflict) := by
        unfold applyKeepRemote
        split
        next => exact yields_perform.mpr trivial
        next => exact yields_fetchTo hreads _ _
      exact ⟨resolved, hdone.bind rfl, List.Subset.refl _, by simp [heffective],
        by simp [heffective]⟩
  | keepBoth =>
      let copy : SyncAction :=
        { path := conflictCopyPath conflict.path
          kind := .upload
          localEntry := some (walkEntry crypto ⟨plaintext, 0⟩)
          remoteEntry := none }
      have hcopied : Yields (Finds crypto base folder now served)
          (.ok (conflictCopyPath conflict.path)) (writeConflictCopy crypto conflict) := by
        rw [writeConflictCopy]
        exact (yields_fetchTo hreads _ _).bind rfl
      have hstat : Yields (Finds crypto base folder now served) (.ok ⟨plaintext, 0⟩)
          (perform (Effect.statFile (conflictCopyPath conflict.path))) :=
        yields_perform.mpr trivial
      have hcopy : Yields (Finds crypto base folder now served) (.ok copy)
          (buildUploadActionForPath crypto (conflictCopyPath conflict.path)) := by
        rw [buildUploadActionForPath]
        exact hstat.bind rfl
      refine ⟨{ resolved with uploads := resolved.uploads ++ [conflictToUpload conflict, copy] },
        hcopied.bind (hcopy.bind rfl), List.subset_append_left _ _, by simp [heffective], ?_⟩
      exact fun _ => ⟨copy, by simp, rfl, rfl, rfl⟩

/-- One answer for all conflicts can be carried out. -/
theorem yields_applyResolutions {resolutions : List ConflictResolution}
    {choice : ConflictResolutionChoice} {conflicts : List Conflict}
    (hchoice : ∀ conflict ∈ conflicts, resolutionFor resolutions conflict.path = some choice)
    (resolved : Resolved) :
    ∃ final, Yields (Finds crypto base folder now served) (.ok final)
        (applyResolutions crypto resolutions conflicts resolved) ∧
      resolved.uploads ⊆ final.uploads ∧
      ∀ conflict ∈ conflicts, AnswerAdds choice conflict final.uploads := by
  induction conflicts generalizing resolved with
  | nil => exact ⟨resolved, rfl, List.Subset.refl _, by simp⟩
  | cons conflict rest ih =>
      obtain ⟨next, hfirst, hkept, hanswered⟩ :=
        @yields_applyResolution crypto base folder now served blob plaintext hreads _ _ _
          (hchoice conflict List.mem_cons_self) resolved
      obtain ⟨final, hrest, hgrows, hothers⟩ :=
        ih (fun other hother => hchoice other (List.mem_cons_of_mem _ hother)) next
      refine ⟨final, ?_, List.Subset.trans hkept hgrows, ?_⟩
      · rw [applyResolutions]
        exact hfirst.bind hrest
      · intro other hother
        rcases List.mem_cons.mp hother with rfl | hother
        · exact hanswered.mono hgrows
        · exact hothers other hother

/-- The answer to each conflict is come to. -/
theorem tries_applyResolutions {resolutions : List ConflictResolution}
    {choice : ConflictResolutionChoice} {conflicts : List Conflict} {conflict : Conflict}
    (hmem : conflict ∈ conflicts)
    (hchoice : ∀ conflict ∈ conflicts, resolutionFor resolutions conflict.path = some choice)
    {target : Effect} (htries : ∀ resolved, Tries (Finds crypto base folder now served) target
      (applyResolution crypto resolutions resolved conflict)) (resolved : Resolved) :
    Tries (Finds crypto base folder now served) target
      (applyResolutions crypto resolutions conflicts resolved) := by
  induction conflicts generalizing resolved with
  | nil => cases hmem
  | cons first rest ih =>
      rw [applyResolutions]
      rcases List.mem_cons.mp hmem with rfl | hrest
      · exact (htries resolved).bind _
      · obtain ⟨next, hnext, _⟩ :=
          @yields_applyResolution crypto base folder now served blob plaintext hreads _ _ _
            (hchoice first List.mem_cons_self) resolved
        apply hnext.tries
        exact ih hrest (fun other hother => hchoice other (List.mem_cons_of_mem _ hother)) next

end Answers

/-! ## The whole cycle -/

/-- The plan of a cycle that finds this and works with this manifest. -/
def plannedDiff (crypto : Crypto) (ignore : IgnoreRules) (base : Manifest) (folder : Folder)
    (now : Nat) (remote : Manifest) : ManifestDiff :=
  diffLocalAndRemote base (buildWorkingManifest crypto ignore now folder base) remote ignore

def planOf (diff : ManifestDiff) (failures : List SyncFailure) : SyncPlan where
  upload := diff.upload
  download := diff.download
  conflicts := diff.conflicts
  failures := failures

theorem loads_local : Yields (Finds crypto base folder now served) (.ok (base, folder, now))
    (perform Effect.loadLocalState) :=
  yields_perform.mpr rfl

/-- A plan of `prepare_sync`, or what a round on such a plan leaves for the next. -/
inductive Arises (crypto : Crypto) (ignore : IgnoreRules) (base : Manifest) (folder : Folder)
    (now : Nat) (served : Manifest → Prop) : SyncPlan → Prop
  | prepared {plan : SyncPlan}
      (hyields : Yields (Finds crypto base folder now served) (.ok plan)
        (prepareSync crypto ignore)) :
      Arises crypto ignore base folder now served plan
  | late {plan next : SyncPlan} {resolutions : List ConflictResolution} {result : SyncResult}
      (before : Arises crypto ignore base folder now served plan)
      (hyields : Yields (Finds crypto base folder now served) (.ok result)
        (completeSync crypto plan resolutions))
      (hlate : SyncPlan.fromLateConflicts result = some next) :
      Arises crypto ignore base folder now served next

/-- The operations of `prepare_sync`, and of `complete_sync` on every plan that
arises, with any answers. -/
inductive Attempted (crypto : Crypto) (ignore : IgnoreRules) (base : Manifest) (folder : Folder)
    (now : Nat) (served : Manifest → Prop) (effect : Effect) : Prop
  | preparing (htries : Tries (Finds crypto base folder now served) effect
      (prepareSync crypto ignore))
  | completing {plan : SyncPlan} (harises : Arises crypto ignore base folder now served plan)
      (resolutions : List ConflictResolution)
      (htries : Tries (Finds crypto base folder now served) effect
        (completeSync crypto plan resolutions))

theorem tries_prepareSync {remote : Manifest} (hserved : served remote) {target : Effect}
    (htries : Tries (Finds crypto base folder now served) target
      (applyDownloads crypto (plannedDiff crypto ignore base folder now remote).download)) :
    Tries (Finds crypto base folder now served) target (prepareSync crypto ignore) := by
  rw [prepareSync_eq]
  apply loads_local.tries
  simp only [prepareFrom]
  apply (yields_fetch hserved).tries
  exact htries.bind _

/-- Every manifest that is served is planned with. -/
theorem arises_planned (ignore : IgnoreRules) {remote : Manifest} (hserved : served remote) :
    ∃ failures, Arises crypto ignore base folder now served
      (planOf (plannedDiff crypto ignore base folder now remote) failures) := by
  obtain ⟨failures, hfailures⟩ : ∃ failures, Yields (Finds crypto base folder now served) failures
      (applyDownloads crypto (plannedDiff crypto ignore base folder now remote).download) :=
    exists_yields finds_something _
  refine ⟨failures, .prepared ?_⟩
  rw [prepareSync_eq]
  apply loads_local.bind
  simp only [prepareFrom]
  apply (yields_fetch hserved).bind
  exact hfailures.bind rfl

/-- An upload of a round may be refused, and is a conflict of the next one then. -/
theorem Arises.refused {plan : SyncPlan}
    (harises : Arises crypto ignore base folder now served plan)
    {resolutions : List ConflictResolution} {resolved : Resolved}
    (hresolved : Yields (Finds crypto base folder now served) (.ok resolved)
      (applyResolutions crypto resolutions plan.conflicts ⟨plan.upload, []⟩))
    {action : SyncAction} (hmem : action ∈ resolved.uploads) (hsent : IsSent action)
    (remote : FileEntry) :
    ∃ next, Arises crypto ignore base folder now served next ∧
      refusedWith remote action ∈ next.conflicts := by
  obtain ⟨outcome, houtcome, hrefused⟩ := @yields_runUploads crypto base folder now served remote
    resolved.uploads (plan.failures.map SyncFailure.path ++ resolved.deferred.map Conflict.path)
  let left (checkpointError : Option String) : SyncResult :=
    { upload := resolved.uploads
      download := plan.download
      conflicts := resolved.deferred ++ outcome.lateConflicts
      failures := plan.failures ++ outcome.failures
      checkpointError }
  obtain ⟨checkpointError, hresult⟩ : ∃ checkpointError,
      Yields (Finds crypto base folder now served) (.ok (left checkpointError))
        (completeSync crypto plan resolutions) := by
    rw [completeSync]
    by_cases hfatal : (plan.failures ++ outcome.failures).any SyncFailure.fatal = true
    · refine ⟨none, hresolved.bind (houtcome.bind ?_)⟩
      simp only [hfatal, ↓reduceIte]
      exact rfl
    · obtain ⟨saved, hsaved⟩ : ∃ saved, Yields (Finds crypto base folder now served) saved
          (checkpoint crypto outcome.holdBack) := exists_yields finds_something _
      cases saved with
      | ok value =>
          refine ⟨none, hresolved.bind (houtcome.bind ?_)⟩
          simp only [if_neg hfatal]
          exact hsaved.bind rfl
      | error error =>
          refine ⟨some error.text, hresolved.bind (houtcome.bind ?_)⟩
          simp only [if_neg hfatal]
          exact hsaved.bind rfl
  have hlate : refusedWith remote action ∈ resolved.deferred ++ outcome.lateConflicts :=
    List.mem_append_right _ (hrefused action hmem hsent)
  have hsome : (resolved.deferred ++ outcome.lateConflicts).isEmpty = false :=
    List.isEmpty_eq_false_iff.mpr (List.ne_nil_of_mem hlate)
  refine ⟨⟨[], [], resolved.deferred ++ outcome.lateConflicts, []⟩, .late harises hresult ?_, hlate⟩
  simp only [SyncPlan.fromLateConflicts, left, hsome, Bool.false_eq_true, ↓reduceIte]

theorem isSent_conflictToUpload (conflict : Conflict) : IsSent (conflictToUpload conflict) := by
  unfold IsSent conflictToUpload
  split
  next => exact Or.inr rfl
  next => exact Or.inl rfl

section Outside

variable {blob plaintext : Bytes} (hreads : crypto.decrypt blob = .ok plaintext)
  {plan : SyncPlan} (harises : Arises crypto ignore base folder now served plan)

include hreads harises

/-- An upload of a plan becomes a conflict with what the server has. -/
theorem conflict_of_upload {action : SyncAction} (hmem : action ∈ plan.upload)
    (hsent : IsSent action) (remote : FileEntry) :
    ∃ next, Arises crypto ignore base folder now served next ∧
      refusedWith remote action ∈ next.conflicts := by
  obtain ⟨resolved, hresolved, hkept, _⟩ :=
    @yields_applyResolutions crypto base folder now served blob plaintext hreads _ _ _
      (fun conflict hconflict => resolutionFor_answerAll hconflict .keepLocal) ⟨plan.upload, []⟩
  exact harises.refused hresolved (hkept hmem) hsent remote

/-- A conflict that is kept local becomes one with what the server has then. -/
theorem conflict_again {conflict : Conflict} (hmem : conflict ∈ plan.conflicts)
    (remote : FileEntry) :
    ∃ next, Arises crypto ignore base folder now served next ∧
      ⟨conflict.path, conflict.localEntry, remote⟩ ∈ next.conflicts := by
  obtain ⟨resolved, hresolved, _, hanswered⟩ :=
    @yields_applyResolutions crypto base folder now served blob plaintext hreads _ _ _
      (fun conflict hconflict => resolutionFor_answerAll hconflict .keepLocal) ⟨plan.upload, []⟩
  exact harises.refused hresolved ((hanswered conflict hmem).kept rfl)
    (isSent_conflictToUpload conflict) remote

/-- The copy of a conflict becomes a conflict. -/
theorem conflict_of_copy {conflict : Conflict} (hmem : conflict ∈ plan.conflicts)
    (hhere : conflict.localEntry.deleted = false) (hthere : conflict.remoteEntry.deleted = false) :
    ∃ next, Arises crypto ignore base folder now served next ∧ ∃ copy ∈ next.conflicts,
      copy.path = conflictCopyPath conflict.path ∧ copy.localEntry.deleted = false ∧
        copy.remoteEntry.deleted = false := by
  obtain ⟨resolved, hresolved, _, hanswered⟩ :=
    @yields_applyResolutions crypto base folder now served blob plaintext hreads _ _ _
      (fun conflict hconflict => resolutionFor_answerAll hconflict .keepBoth) ⟨plan.upload, []⟩
  obtain ⟨copy, hcopy, hkind, hpath, hlive⟩ :=
    (hanswered conflict hmem).copied (by simp [effectiveChoice, hhere, hthere])
  obtain ⟨next, hnext, hlate⟩ := harises.refused hresolved hcopy (Or.inl hkind) {}
  exact ⟨next, hnext, _, hlate, hpath, hlive, rfl⟩

/-- A live remote side is written. -/
theorem attempted_write {conflict : Conflict} (hmem : conflict ∈ plan.conflicts)
    (hthere : conflict.remoteEntry.deleted = false) :
    Attempted crypto ignore base folder now served (.writeFile conflict.path plaintext) := by
  refine .completing harises (answerAll plan.conflicts .keepRemote) ?_
  rw [completeSync]
  apply Tries.bind
  apply tries_applyResolutions hreads hmem
    fun conflict hconflict => resolutionFor_answerAll hconflict .keepRemote
  intro resolved
  simp only [applyResolution, resolutionFor_answerAll hmem .keepRemote, effectiveChoice,
    applyKeepRemote, hthere, Bool.false_eq_true, ↓reduceIte]
  exact (tries_fetchTo hreads _ _).bind _

omit harises in
/-- Copies of copies arise, each in a later round. -/
theorem exists_copies (n : Nat) {plan : SyncPlan}
    (harises : Arises crypto ignore base folder now served plan) {conflict : Conflict}
    (hmem : conflict ∈ plan.conflicts) (hhere : conflict.localEntry.deleted = false)
    (hthere : conflict.remoteEntry.deleted = false) :
    ∃ next, Arises crypto ignore base folder now served next ∧ ∃ copy ∈ next.conflicts,
      copy.path = conflictCopyPath^[n] conflict.path ∧ copy.remoteEntry.deleted = false := by
  induction n generalizing plan conflict with
  | zero => exact ⟨plan, harises, conflict, hmem, rfl, hthere⟩
  | succ n ih =>
      obtain ⟨next, hnext, copy, hcopy, hpath, hlive, hother⟩ :=
        conflict_of_copy hreads harises hmem hhere hthere
      obtain ⟨last, hlast, found, hfound, hspelled, hremote⟩ := ih hnext hcopy hlive hother
      refine ⟨last, hlast, found, hfound, ?_, hremote⟩
      rw [hspelled, hpath, Function.iterate_succ_apply]

/-- A conflict with a live remote side spreads over its path and the copies. -/
theorem spread_of_conflict
    (hconfined : ∀ effect, Attempted crypto ignore base folder now served effect →
      effect.Confined same root) {conflict : Conflict} (hmem : conflict ∈ plan.conflicts)
    (hthere : conflict.remoteEntry.deleted = false) : ConflictConfined same root conflict := by
  refine ⟨hconfined _ (attempted_write hreads harises hmem hthere), fun hhere n => ?_⟩
  obtain ⟨next, hnext, copy, hcopy, hpath, hremote⟩ :=
    exists_copies hreads n harises hmem hhere hthere
  have hwrite := hconfined _ (attempted_write hreads hnext hcopy hremote)
  rwa [hpath] at hwrite

end Outside

theorem isSent_of_decide3 {path : String} {base here there : Option FileEntry}
    {action : SyncAction} (hdecision : decide3 path base here there = .upload action) :
    IsSent action := by
  unfold decide3 at hdecision
  simp only at hdecision
  split at hdecision
  next => cases hdecision
  next =>
    obtain rfl := Decision.upload.inj hdecision
    unfold IsSent
    cases version here <;> simp
  next => cases hdecision
  next => split at hdecision <;> cases hdecision

/-- What leads out of a decision is led to by some round. -/
theorem decision_confined_of_rounds {blob plaintext : Bytes}
    (hreads : crypto.decrypt blob = .ok plaintext)
    (hconfined : ∀ effect, Attempted crypto ignore base folder now served effect →
      effect.Confined same root) {remote : Manifest} (hserved : served remote) (path : String) :
    DecisionConfined same root (decisionAt (keep ignore base)
      (keep ignore (buildWorkingManifest crypto ignore now folder base)) (keep ignore remote)
        path) := by
  obtain ⟨failures, harises⟩ := @arises_planned crypto base folder now served ignore _ hserved
  cases hdecision : decisionAt (keep ignore base)
      (keep ignore (buildWorkingManifest crypto ignore now folder base)) (keep ignore remote)
        path with
  | nothing => trivial
  | upload action =>
      have hmem : action ∈ (plannedDiff crypto ignore base folder now remote).upload := by
        obtain rfl := decide3_upload_path hdecision
        exact mem_diff_upload.mpr hdecision
      obtain ⟨next, hnext, hlate⟩ :=
        conflict_of_upload hreads harises hmem (isSent_of_decide3 hdecision) {}
      exact spread_of_conflict hreads hnext hconfined hlate rfl
  | download action =>
      obtain rfl := decide3_download_path hdecision
      have hmem : action ∈ (plannedDiff crypto ignore base folder now remote).download :=
        mem_diff_download.mpr hdecision
      constructor
      · intro hkind
        exact hconfined _ (.preparing
          (tries_prepareSync hserved (tries_applyDownloads_delete hmem hkind)))
      · intro hkind
        exact hconfined _ (.preparing
          (tries_prepareSync hserved (tries_applyDownloads_write hreads hmem hkind)))
  | conflict conflict =>
      have hmem : conflict ∈ (plannedDiff crypto ignore base folder now remote).conflicts := by
        obtain rfl := decide3_conflict_path hdecision
        exact mem_diff_conflicts.mpr hdecision
      obtain ⟨next, hnext, hlate⟩ := conflict_again hreads harises hmem {}
      have hspread := spread_of_conflict hreads hnext hconfined hlate rfl
      exact ⟨hspread.writes, hspread.copies⟩

/-- A plan is made of the local state and a manifest that was served. -/
theorem planned_of_yields {plan : SyncPlan}
    (hyields :
      Yields (Finds crypto base folder now served) (.ok plan) (prepareSync crypto ignore)) :
    ∃ remote failures, served remote ∧
      plan = planOf (plannedDiff crypto ignore base folder now remote) failures := by
  rw [prepareSync_eq] at hyields
  obtain ⟨loaded, hloaded, hyields⟩ := (yields_bind _ _ _).mp hyields
  rw [yields_perform] at hloaded
  rcases loaded with error | loaded
  · cases hyields
  obtain rfl := hloaded
  obtain ⟨remote, hremote, hyields⟩ := (yields_bind _ _ _).mp hyields
  rcases remote with error | remote
  · cases hyields
  obtain ⟨failures, _, hplan⟩ := (yields_bind _ _ _).mp hyields
  exact ⟨remote, failures, served_of_fetch hremote, (Except.ok.inj hplan).symm⟩

/-- Preparing carries out the downloads of such a plan, and looks after its books. -/
theorem prepareSync_confined
    (hdownloads : ∀ remote, served remote →
      ∀ action ∈ (plannedDiff crypto ignore base folder now remote).download,
        DownloadConfined same root action) {effect : Effect}
    (htries : Tries (Finds crypto base folder now served) effect (prepareSync crypto ignore)) :
    effect.Confined same root := by
  rw [prepareSync_eq] at htries
  rcases (tries_bind _ _ _).mp htries with hload | ⟨loaded, hloaded, htries⟩
  · rw [← tries_perform.mp hload]
    trivial
  rw [yields_perform] at hloaded
  rcases loaded with error | loaded
  · exact htries.elim
  obtain rfl := hloaded
  rcases (tries_bind _ _ _).mp htries with hbooks | ⟨remote, hremote, htries⟩
  · exact ((fetchRemoteManifest_books crypto).tries hbooks).confined
  rcases remote with error | remote
  · exact htries.elim
  rcases (tries_bind _ _ _).mp htries with hcarries | ⟨_, _, hnever⟩
  · exact ((applyDownloads_carries crypto _).tries hcarries).confined
      (hdownloads remote (served_of_fetch hremote))
  · exact hnever.elim

/-- The plans that arise are confined when the decisions are. -/
theorem Arises.confined
    (hdecisions : ∀ remote, served remote → ∀ path, DecisionConfined same root
      (decisionAt (keep ignore base)
        (keep ignore (buildWorkingManifest crypto ignore now folder base)) (keep ignore remote)
          path))
    {plan : SyncPlan} (harises : Arises crypto ignore base folder now served plan) :
    PlanConfined same root plan := by
  induction harises with
  | prepared hyields =>
      obtain ⟨remote, failures, hserved, rfl⟩ := planned_of_yields hyields
      constructor
      · intro action hmem
        have hdecision := hdecisions remote hserved action.path
        rw [mem_diff_upload.mp hmem] at hdecision
        exact hdecision
      · intro conflict hmem
        have hdecision := hdecisions remote hserved conflict.path
        rw [mem_diff_conflicts.mp hmem] at hdecision
        exact hdecision
  | late _ hyields hlate ih =>
      unfold SyncPlan.fromLateConflicts at hlate
      split at hlate
      next => cases hlate
      next =>
        obtain rfl := Option.some.inj hlate
        exact ⟨fun action hmem => (by cases hmem),
          (completeSync_confined crypto ih _).yields hyields _ rfl⟩

/-- Rounds whose decisions lead nowhere else. -/
theorem attempted_confined_of_decisions
    (hdecisions : ∀ remote, served remote → ∀ path, DecisionConfined same root
      (decisionAt (keep ignore base)
        (keep ignore (buildWorkingManifest crypto ignore now folder base)) (keep ignore remote)
          path))
    {effect : Effect} (hattempted : Attempted crypto ignore base folder now served effect) :
    effect.Confined same root := by
  cases hattempted with
  | preparing htries =>
      apply prepareSync_confined _ htries
      intro remote hserved action hmem
      have hdecision := hdecisions remote hserved action.path
      rw [mem_diff_download.mp hmem] at hdecision
      exact hdecision
  | completing harises resolutions htries =>
      exact (completeSync_confined crypto (harises.confined hdecisions) resolutions).tries htries

/-- A decision, by what the three sides say of a path that is not ignored. -/
theorem decision_confined_iff (remote : Manifest) (path : String) :
    DecisionConfined same root (decisionAt (keep ignore base)
        (keep ignore (buildWorkingManifest crypto ignore now folder base))
          (keep ignore remote) path) ↔
      (ignore.isIgnored path = false → PathConfined same root path (version base[path]?)
        (version (buildManifest crypto ignore folder)[path]?) (version remote[path]?)) := by
  rw [decisionAt, decide3_confined, keep_getElem?, keep_getElem?, keep_getElem?]
  cases ignore.isIgnored path with
  | true =>
      constructor
      · intro _ hseen
        cases hseen
      · intro _
        constructor <;> (intro hdiffers; exact absurd rfl hdiffers)
  | false =>
      simp only [Bool.false_eq_true, ↓reduceIte, forall_const, version_buildWorkingManifest]

end Cycle

/-- A cycle and its further rounds, whatever becomes of their operations, keep to
the vault exactly when each path that is not ignored does, as its versions in the
checkpoint, the folder and the manifests that are served ask for. -/
theorem rounds_keep_to_vault_iff (crypto : Crypto)
    (hreads : ∃ blob plaintext, crypto.decrypt blob = .ok plaintext) (same : String → String)
    (root : List String) (ignore : IgnoreRules) (base : Manifest) (folder : Folder) (now : Nat)
    (served : Manifest → Prop) :
    (∀ effect, Attempted crypto ignore base folder now served effect →
      effect.Confined same root) ↔
    ∀ remote, served remote → ∀ path, ignore.isIgnored path = false →
      PathConfined same root path (version base[path]?)
        (version (buildManifest crypto ignore folder)[path]?) (version remote[path]?) := by
  constructor
  · intro hconfined remote hserved path
    obtain ⟨blob, plaintext, hdecrypt⟩ := hreads
    have hdecision := decision_confined_of_rounds hdecrypt hconfined hserved path
    exact (decision_confined_iff remote path).mp hdecision
  · intro hpaths effect hattempted
    apply attempted_confined_of_decisions _ hattempted
    intro remote hserved path
    exact (decision_confined_iff remote path).mpr (hpaths remote hserved path)

/-! ## A note, and paths that lead out -/

def sampleRoot : List String := ["home", "vault"]

/-- A name at the top of the vault. -/
structure TopName (path : String) : Prop where
  normal : NormalPath path
  top : directory path = []

theorem TopName.conflictCopyPath {path : String} (htop : TopName path) :
    TopName (conflictCopyPath path) where
  normal := htop.normal.conflictCopyPath
  top := (directory_conflictCopyPath htop.normal).trans htop.top

theorem TopName.writes {path : String} (htop : TopName path) :
    WritesInside id sampleRoot path := by
  have hparts : Posix.components path = [String.ofList (fileName path)] := by
    rw [Posix.components, splitOn_eq_directory, htop.top]
    rfl
  have hname : Posix.IsName (String.ofList (fileName path)) := by
    obtain ⟨hempty, hdot, hparent⟩ := htop.normal.fileName
    constructor
    · exact fun heq => hempty (by simpa using congrArg String.toList heq)
    · exact fun heq => hdot (by simpa using congrArg String.toList heq)
    · exact fun heq => hparent (by simpa using congrArg String.toList heq)
    · simpa using no_slash_fileName
  have hjoin : Posix.join sampleRoot path = sampleRoot ++ [String.ofList (fileName path)] := by
    have hrelative : ¬ Posix.IsAbsolute path := by
      intro habsolute
      have hchars : path.toList = fileName path := by
        have hsplit := Text.intercalate_splitOn '/' path.toList
        rw [splitOn_eq_directory, htop.top, List.nil_append, List.intercalate_singleton] at hsplit
        exact hsplit.symm
      exact no_slash_fileName (hchars ▸ List.mem_of_mem_head? habsolute)
    rw [Posix.join, if_neg hrelative, hparts, List.foldl_cons, List.foldl_nil, hname.go]
  intro location hwritten
  obtain rfl : Posix.join sampleRoot path = location := by
    unfold Posix.written? at hwritten
    split at hwritten
    next => cases hwritten
    next =>
      split at hwritten
      next => cases hwritten
      next => exact Option.some.inj hwritten
  rw [hjoin]
  refine ⟨⟨by simp, by simp⟩, ?_⟩
  rintro ⟨_, hlonger⟩
  simp at hlonger

/-- A device that has a note, while the server has nothing. -/
theorem note_of_sample_keeps_to_vault :
    (plannedDiff .sample .defaults ∅ (oneFile "note" [104, 105]) 0 ∅).upload.map
      SyncAction.path = ["note"] ∧
    ∀ effect, Attempted .sample .defaults ∅ (oneFile "note" [104, 105]) 0
      (fun remote => remote = ∅) effect → effect.Confined id sampleRoot := by
  refine ⟨by decide +kernel, ?_⟩
  have hreads : ∃ blob plaintext, Crypto.sample.decrypt blob = .ok plaintext :=
    ⟨_, [], Crypto.sample_ideal.decrypt_encrypt Aead.zeroNonce []⟩
  apply (rounds_keep_to_vault_iff .sample hreads id sampleRoot .defaults ∅
    (oneFile "note" [104, 105]) 0 fun remote => remote = ∅).mpr
  rintro remote rfl path hseen
  have hother : ∀ name, name ≠ "note" → (oneFile "note" [104, 105])[name]? = none := by
    intro name hname
    exact Std.ExtTreeMap.getElem?_insert_of_ne _ _ (Ne.symm hname)
  by_cases hpath : path = "note"
  · subst hpath
    have hcopies : ∀ n, TopName (conflictCopyPath^[n] "note") := by
      intro n
      induction n with
      | zero => exact ⟨by decide, by decide⟩
      | succ n ih =>
          rw [Function.iterate_succ_apply']
          exact ih.conflictCopyPath
    constructor
    · exact fun _ hchanged => absurd rfl hchanged
    · exact fun _ hchanged => absurd rfl hchanged
    · exact fun _ _ => (hcopies 0).writes
    · exact fun _ _ _ n => (hcopies n).writes
  · have hnamed : ∀ name file, (oneFile "note" [104, 105])[name]? = some file →
        (normalizePath name = path ↔ name = path) := by
      intro name file hfile
      by_cases hname : name = "note"
      · subst hname
        rw [show normalizePath "note" = "note" from by decide]
      · rw [hother name hname] at hfile
        cases hfile
    have hhere : version (buildManifest .sample .defaults (oneFile "note" [104, 105]))[path]? =
        .gone := by
      rw [buildManifest_getElem?_of_named _ _ fun _ => hnamed, hother path hpath]
      simp [version]
    rw [hhere]
    constructor <;> (intro hdiffers; exact absurd rfl hdiffers)

/-- A row of another member of the vault, with a path of their making. -/
def strayEntry (path : String) : FileEntry where
  hash := Crypto.sample.contentHmac [1]
  encPath := Crypto.sample.encryptPath Aead.zeroNonce path

def strayManifest (path : String) : Manifest := (∅ : Manifest).insert path (strayEntry path)

/-- A planned download of any served manifest is written. -/
theorem attempted_download {crypto : Crypto} {ignore : IgnoreRules} {base : Manifest}
    {folder : Folder} {now : Nat} {served : Manifest → Prop} {blob plaintext : Bytes}
    (hreads : crypto.decrypt blob = .ok plaintext) {remote : Manifest} (hserved : served remote)
    {path : String}
    (hplanned : ∃ action ∈ (plannedDiff crypto ignore base folder now remote).download,
      action.kind = .download ∧ action.path = path) :
    Attempted crypto ignore base folder now served (.writeFile path plaintext) := by
  obtain ⟨action, hmem, hkind, rfl⟩ := hplanned
  exact .preparing (tries_prepareSync hserved (tries_applyDownloads_write hreads hmem hkind))

/-- A planned upload may be refused; the server's version is written then. -/
theorem attempted_refused {crypto : Crypto} {ignore : IgnoreRules} {base : Manifest}
    {folder : Folder} {now : Nat} {served : Manifest → Prop} {blob plaintext : Bytes}
    (hreads : crypto.decrypt blob = .ok plaintext) {remote : Manifest} (hserved : served remote)
    {path : String}
    (hplanned : ∃ action ∈ (plannedDiff crypto ignore base folder now remote).upload,
      action.kind = .deleteRemote ∧ action.path = path) :
    Attempted crypto ignore base folder now served (.writeFile path plaintext) := by
  obtain ⟨action, hmem, hkind, rfl⟩ := hplanned
  obtain ⟨failures, harises⟩ := @arises_planned crypto base folder now served ignore _ hserved
  obtain ⟨next, hnext, hlate⟩ := conflict_of_upload hreads harises hmem (Or.inr hkind) {}
  exact attempted_write hreads hnext hlate rfl

/-- A path that a served manifest can have, and that a sync follows out of the
vault: from an empty folder, and where the file was deleted that was synced. -/
def LeadsOut (path : String) : Prop :=
  decodeManifest .sample ((∅ : Manifest).insert (Crypto.sample.pathToken path)
    (strayEntry path)) = .ok (strayManifest path) ∧
  (∃ effect, Attempted .sample .defaults ∅ ∅ 0 (Eq (strayManifest path)) effect ∧
    ¬ effect.Confined id sampleRoot) ∧
  ∃ effect, Attempted .sample .defaults (strayManifest path) ∅ 0 (Eq (strayManifest path)) effect ∧
    ¬ effect.Confined id sampleRoot

/-- A parent component, an absolute path, and another spelling of the bookkeeping:
each is fetched and written where it leads. -/
theorem stray_paths_lead_out :
    LeadsOut "../note" ∧ LeadsOut "/note" ∧ LeadsOut "./.obsink/manifest.json" := by
  have hfacts : ∀ path ∈ ["../note", "/note", "./.obsink/manifest.json"],
      decodeManifest .sample ((∅ : Manifest).insert (Crypto.sample.pathToken path)
          (strayEntry path)) = .ok (strayManifest path) ∧
        (∃ action ∈ (plannedDiff .sample .defaults ∅ ∅ 0 (strayManifest path)).download,
          action.kind = .download ∧ action.path = path) ∧
        (∃ action ∈ (plannedDiff .sample .defaults (strayManifest path) ∅ 0
          (strayManifest path)).upload, action.kind = .deleteRemote ∧ action.path = path) ∧
        ¬ WritesInside id sampleRoot path := by
    decide +kernel
  have hreads := Crypto.sample_ideal.decrypt_encrypt Aead.zeroNonce []
  have hout : ∀ path ∈ ["../note", "/note", "./.obsink/manifest.json"], LeadsOut path := by
    intro path hpath
    obtain ⟨hdecode, hfetched, hdeleted, hout⟩ := hfacts path hpath
    have hserved := Eq.refl (strayManifest path)
    exact ⟨hdecode, ⟨_, attempted_download hreads hserved hfetched, hout⟩,
      _, attempted_refused hreads hserved hdeleted, hout⟩
  exact ⟨hout _ (by decide), hout _ (by decide), hout _ (by decide)⟩

end ObSink.Engine
