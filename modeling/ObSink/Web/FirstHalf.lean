import ObSink.Lib.Together
import ObSink.Web.Cycle

/-! # The first half of the two cycles

What the browser's cycle and the native one do up to the conflicts, under the
same answers: both list the same files, fetch the same manifest, plan the same
and apply the same downloads, as long as the answers keep away from what the two
do differently.
-/

namespace ObSink.Web

open Engine
open Prog (BothEnd Together perform together_perform)
open Std.ExtTreeMap (getElem?_insertAll_of_not_mem)

/-! ## One working manifest -/

section Working

variable {crypto : Crypto} {ignore : IgnoreRules} {tree : Tree}

/-- The files of a tree by path, as the walk lists them. -/
theorem manifestOf_walk_getElem? (halike : ∀ file ∈ tree.files [], TreatedAlike ignore file.1)
    (path : String) :
    (manifestOf crypto (tree.walk ignore))[path]? =
      if ignore.isIgnored path = true then none else tree.folder[path]?.map (walkEntry crypto) := by
  rw [walk_eq_filter, Tree.folder]
  generalize tree.files [] = files at halike
  induction files using List.reverseRecOn with
  | nil => simp [manifestOf]
  | append_singleton init last ih =>
      obtain ⟨location, stored⟩ := last
      have hinit := ih fun file hfile => halike file (by simp [hfile])
      have hlast := (halike (location, stored) (by simp)).2
      rw [List.filter_append, List.map_append, List.foldl_append, List.foldl_cons, List.foldl_nil,
        manifestOf, List.foldl_append, ← manifestOf]
      cases hlisted : ignore.isIgnored (normalizePath (pathOf location)) with
      | true =>
          -- not listed, and its own path is ignored
          have hown : ignore.isIgnored (pathOf location) = true := by
            rcases hlast with hplain | ⟨hown, _⟩
            · rw [← hplain.normalizePath]
              exact hlisted
            · exact hown
          simp only [List.filter_cons, hlisted, Bool.not_true, Bool.false_eq_true, if_false,
            List.filter_nil, List.map_nil, List.foldl_nil]
          rw [hinit]
          by_cases hsame : pathOf location = path
          · rw [if_pos (hsame ▸ hown), if_pos (hsame ▸ hown)]
          · rw [Std.ExtTreeMap.getElem?_insert_of_ne _ _ hsame]
      | false =>
          have hplain : normalizePath (pathOf location) = pathOf location := by
            rcases hlast with hplain | ⟨_, hother⟩
            · exact hplain.normalizePath
            · simp [hother] at hlisted
          simp only [List.filter_cons, hlisted, Bool.not_false, if_true, List.filter_nil,
            List.map_cons, List.map_nil, List.foldl_cons, List.foldl_nil]
          rw [hplain] at hlisted ⊢
          by_cases hsame : pathOf location = path
          · subst hsame
            simp [hlisted]
          · rw [Std.ExtTreeMap.getElem?_insert_of_ne _ _ hsame,
              Std.ExtTreeMap.getElem?_insert_of_ne _ _ hsame]
            exact hinit

/-- Both clients list the same files. -/
theorem manifestOf_scan (halike : ∀ file ∈ tree.files [], TreatedAlike ignore file.1) :
    manifestOf crypto (tree.scan ignore "") = buildManifest crypto ignore tree.folder := by
  rw [agree_of_treatedAlike halike]
  apply Std.ExtTreeMap.ext_getElem?
  intro path
  rw [manifestOf_walk_getElem? halike, buildManifest_getElem?_of_spelled]
  intro name stored hstored
  obtain ⟨location, hfile, rfl⟩ := folder_getElem? hstored
  exact (halike _ hfile).2

/-- Looking for a path among what was there from the start, or among that and the
tombstones so far, is the same when no path comes twice. -/
theorem foldl_addTombstone (now : Nat) (current working : Manifest)
    (entries : List (String × FileEntry)) (hdistinct : entries.Pairwise fun a b => a.1 ≠ b.1)
    (hsame : ∀ entry ∈ entries, working.contains entry.1 = current.contains entry.1) :
    entries.foldl (addTombstone now) working =
      entries.foldl
        (fun working (path, entry) =>
          if current.contains path || entry.deleted then working
          else working.insert path { entry with modified := now, deleted := true })
        working := by
  induction entries generalizing working with
  | nil => rfl
  | cons entry rest ih =>
      obtain ⟨hhead, hrest⟩ := List.pairwise_cons.mp hdistinct
      have hown := hsame entry (by simp)
      simp only [List.foldl_cons, addTombstone, hown]
      apply ih _ hrest
      intro later hlater
      split
      next => exact hsame later (by simp [hlater])
      next =>
        rw [← hsame later (by simp [hlater]), Std.ExtTreeMap.contains_insert]
        have hne : compare entry.1 later.1 ≠ .eq := fun heq =>
          hhead later hlater (Std.LawfulEqCmp.eq_of_compare heq)
        simp [hne]

theorem buildWorkingManifest_scan (halike : ∀ file ∈ tree.files [], TreatedAlike ignore file.1)
    (now : Nat) (base : Manifest) :
    buildWorkingManifest crypto now (tree.scan ignore "") base =
      Engine.buildWorkingManifest crypto ignore now tree.folder base := by
  unfold buildWorkingManifest Engine.buildWorkingManifest
  rw [manifestOf_scan halike]
  apply foldl_addTombstone
  · refine base.distinct_keys_toList.imp ?_
    intro a b hne heq
    exact hne (heq ▸ Std.ReflCmp.compare_self)
  · exact fun _ _ => rfl

end Working

/-! ## Answers both make the same of -/

/-- The native cycle reads its base once more, on its own. -/
def silent : Effect → Bool
  | .loadBase => true
  | _ => false

/-- No status from 600 on. -/
def Known (error : ApiError) : Prop :=
  ∀ status body, error = .unexpectedStatus status body → status < 600

/-- The parent hash an operation presents. -/
def presented : BatchOp → Option String
  | .put _ parentHash _ _ => parentHash
  | .delete _ parentHash => parentHash

/-- A refusal that both make the same conflict or failure of. -/
def Settled (op : BatchOp) (error : Server.ApiError) : Prop :=
  error.statusCode < 600 ∧
    (error.statusCode = 409 → (∀ path entry, error ≠ .conflict path (some entry)) →
      presented op = none)

/-- Every status is below 600; no download is answered 401; a batch is answered
or fails for good; a 409 without an entry meets no parent hash; no conflict is
answered twice; and the paths of the server are names an object can have. -/
def Ordinary (cycle : Cycle) (base : Manifest) : (effect : Effect) → effect.Reply → Prop
  | .loadLocalState, reply => ∀ found folder now, reply = .ok (found, folder, now) →
      found = base ∧ folder = cycle.root.folder
  | .loadRemoteCache, reply => ∀ cache, reply = some cache →
      cache.etag.isSome = true ∧ "__proto__" ∉ cache.manifest
  | .getManifest ifNoneMatch, reply =>
      (ifNoneMatch = none → reply ≠ .ok .notModified) ∧
        ∀ rows etag manifest, reply = .ok (.rows rows etag) →
          decodeManifest cycle.keys rows = .ok manifest → "__proto__" ∉ manifest
  | .getFile _, reply => ∀ error, reply = .error error →
      (cycle.exception error).kind ≠ .unauthorized ∧ Known error
  | .writeFile _ _, reply => ∀ error, reply = .error error → isFatalSyncError error = false
  | .ask conflicts, resolutions => ∀ conflict ∈ conflicts,
      (resolutions.filter fun resolution => resolution.path = conflict.path).length ≤ 1
  | .sendBatch, reply | .receiveBatch, reply => ∀ error, reply = .error error →
      isTransient error = false ∧ Known error
  | .readBatch, reply => ∀ error, reply = .error error → isFatalApiError error = false
  | .applyOp op, reply => ∀ error, reply = .error error → Settled op error
  | .loadBase, reply => reply = .ok base
  | _, _ => True

/-- Resolving the conflicts meets no error. -/
def Smooth (cycle : Cycle) : (effect : Effect) → effect.Reply → Prop
  | .deleteLocalFile _, reply | .writeFile _ _, reply => reply = .ok ()
  | .statFile _, reply => ∃ file, reply = .ok file
  | .getFile _, reply => ∃ blob plaintext,
      reply = .ok blob ∧ cycle.keys.decrypt blob = .ok plaintext
  | _, _ => True

theorem isFatalStatus_eq {status : Nat} (hbelow : status < 600) :
    isFatalStatus status = Engine.isFatalStatus status := by
  have hle : status ≤ 599 := by omega
  simp [isFatalStatus, Engine.isFatalStatus, hle]

theorem isFatalError_fromStatus (status : Nat) (message : String) :
    isFatalError (fromStatus status message) = isFatalStatus status := by
  unfold fromStatus
  split
  next h401 => simp [isFatalError, isFatalStatus, h401]
  next => simp [isFatalError]

theorem isFatalError_exception (cycle : Cycle) {error : ApiError} (hknown : Known error) :
    isFatalError (cycle.exception error) = isFatalApiError error := by
  cases error with
  | http kind message => cases kind <;> rfl
  | conflict path found => rfl
  | crypto error => rfl
  | unauthorized => rfl
  | unexpectedStatus status body =>
      exact (isFatalError_fromStatus _ _).trans (isFatalStatus_eq (hknown status body rfl))

/-- A failure but for its text. -/
def gist (failure : SyncFailure) : String × SyncActionKind × Bool :=
  (failure.path, failure.kind, failure.fatal)

/-! ## Downloads -/

section Downloads

variable {cycle : Cycle} {base : Manifest}

theorem deleteAll_together {allowed : (effect : Effect) → effect.Reply → Prop}
    (actions : List SyncAction) (hkinds : ∀ action ∈ actions, action.kind = .deleteLocal) :
    Together silent allowed
      (fun failures removed => failures.map gist = removed.1.map gist ∧ removed.2 = false)
      (deleteAll actions) (removeAll false actions) := by
  induction actions with
  | nil => exact .pure ⟨rfl, rfl⟩
  | cons action rest ih =>
      have hrest := ih fun later hlater => hkinds later (List.mem_cons_of_mem _ hlater)
      rw [deleteAll, removeAll]
      apply together_perform
      intro reply _
      cases reply with
      | ok value =>
          apply hrest.bind_left
          intro failures removed halike
          exact .pure halike
      | error error =>
          apply hrest.bind
          intro failures removed halike
          refine .pure ⟨?_, halike.2⟩
          have hkind := hkinds action (by simp)
          simp [gist, Engine.failureOf, failureOf, hkind, halike.1, isFatalError, thrown]

/-- The same step, and the session still has its bearer. -/
inductive StepAlike : FlightStep → FlightStep × Bool → Prop
  | goOn (stage : Stage) : StepAlike (.goOn stage) (.goOn stage, true)
  | done : StepAlike (.done none) (.done none, true)
  | failed (failure failure' : SyncFailure) (hgist : gist failure = gist failure') :
      StepAlike (.done (some failure)) (.done (some failure'), true)

theorem fetchOne_together (stop : Bool) {flight : Flight} (hkind : flight.action.kind = .download) :
    Together silent (Ordinary cycle base) StepAlike (fetchOne cycle.keys stop flight)
      (runOne cycle stop true flight) := by
  obtain ⟨action, stage⟩ := flight
  change action.kind = .download at hkind
  cases stage with
  | waiting =>
      cases stop with
      | true =>
          simp only [fetchOne, runOne, or_true, if_true]
          exact .pure .done
      | false =>
          simp only [fetchOne, runOne, hkind]
          exact .pure (.goOn _)
  | started =>
      apply together_perform
      intro reply hreply
      cases reply with
      | ok blob => exact .pure (.goOn _)
      | error error =>
          obtain ⟨hsession, hknown⟩ := hreply error rfl
          have hgist : gist (Engine.failureOf action .download (.api error)) =
              gist (failureOf action (cycle.exception error)) := by
            simp [gist, Engine.failureOf, failureOf, hkind, isFatalSyncError,
              isFatalError_exception cycle hknown]
          have hfailed := StepAlike.failed _ _ hgist
          rw [← show decide ((cycle.exception error).kind ≠ .unauthorized) = true by
            simpa using hsession] at hfailed
          exact .pure hfailed
  | fetched blob =>
      simp only [fetchOne, runOne]
      cases cycle.keys.decrypt blob with
      | error error =>
          refine .pure (.failed _ _ ?_)
          simp [gist, Engine.failureOf, failureOf, hkind, isFatalSyncError, isFatalError, thrown]
      | ok plaintext =>
          apply together_perform
          intro reply hreply
          cases reply with
          | ok value => exact .pure .done
          | error error =>
              refine .pure (.failed _ _ ?_)
              simp [gist, Engine.failureOf, failureOf, hkind, hreply error rfl,
                isFatalError, thrown]

/-- The same failures but for their texts, and the session still has its bearer. -/
def FailedAlike (failures : List SyncFailure) (result : List SyncFailure × Bool) : Prop :=
  failures.map gist = result.1.map gist ∧ result.2 = true

theorem fetchLoop_together (fuel : Nat) {pending : List SyncAction} {inFlight : List Flight}
    (stop : Bool) {failures failures' : List SyncFailure}
    (hpending : ∀ action ∈ pending, action.kind = .download)
    (hflights : ∀ flight ∈ inFlight, flight.action.kind = .download)
    (hfailures : failures.map gist = failures'.map gist) :
    Together silent (Ordinary cycle base) FailedAlike
      (fetchLoop cycle.keys fuel pending inFlight stop failures)
      (runPool cycle fuel pending inFlight stop true failures') := by
  induction fuel generalizing pending inFlight stop failures failures' with
  | zero => exact .pure ⟨hfailures, rfl⟩
  | succ fuel ih =>
      rw [fetchLoop, runPool]
      have htaken : ∀ flight ∈ inFlight ++ (pending.take (Engine.downloadConcurrency -
          inFlight.length)).map fun action => (⟨action, .waiting⟩ : Flight),
          flight.action.kind = .download := by
        intro flight hflight
        rcases List.mem_append.mp hflight with hold | hnew
        · exact hflights flight hold
        · obtain ⟨action, haction, rfl⟩ := List.mem_map.mp hnew
          exact hpending action (List.mem_of_mem_take haction)
      have hleft : ∀ action ∈ pending.drop (Engine.downloadConcurrency - inFlight.length),
          action.kind = .download := fun action haction =>
        hpending action (List.mem_of_mem_drop haction)
      have hsame : downloadConcurrency = Engine.downloadConcurrency := rfl
      simp only [hsame]
      generalize inFlight ++ (pending.take (Engine.downloadConcurrency -
        inFlight.length)).map (fun action => (⟨action, .waiting⟩ : Flight)) = flights at htaken ⊢
      generalize pending.drop (Engine.downloadConcurrency - inFlight.length) = pending at hleft ⊢
      split
      next => exact .pure ⟨hfailures, rfl⟩
      next =>
        apply together_perform
        intro pick _
        cases hflight : flights[pick % flights.length]? with
        | none => exact .pure ⟨hfailures, rfl⟩
        | some flight =>
            have hkind := htaken flight (List.mem_of_getElem? hflight)
            apply (fetchOne_together stop hkind).bind
            intro step result halike
            have hrest : ∀ other ∈ flights.eraseIdx (pick % flights.length),
                other.action.kind = .download := fun other hother =>
              htaken other (List.mem_of_mem_eraseIdx hother)
            cases halike with
            | goOn stage =>
                refine ih stop hleft ?_ hfailures
                intro other hother
                rcases List.mem_or_eq_of_mem_set hother with hold | rfl
                · exact htaken other hold
                · exact hkind
            | done => exact ih stop hleft hrest hfailures
            | failed failure failure' hgist =>
                have hfatal : failure.fatal = failure'.fatal :=
                  congrArg (fun gist => gist.2.2) hgist
                simp only [hfatal]
                exact ih _ hleft hrest (by simp [hfailures, hgist])

theorem applyDownloads_together {downloads : List SyncAction}
    (hkinds : ∀ action ∈ downloads, action.kind = .download ∨ action.kind = .deleteLocal) :
    Together silent (Ordinary cycle base) FailedAlike (Engine.applyDownloads cycle.keys downloads)
      (applyDownloads cycle true downloads) := by
  unfold Engine.applyDownloads applyDownloads
  have hdeletes : ∀ action ∈ downloads.filter fun action => action.kind = .deleteLocal,
      action.kind = .deleteLocal :=
    fun action haction => by simpa using (List.mem_filter.mp haction).2
  apply (deleteAll_together _ hdeletes).bind
  intro removed result halike
  obtain ⟨hremoved, hstop⟩ := halike
  obtain ⟨removed', stop⟩ := result
  obtain rfl : stop = false := hstop
  refine (fetchLoop_together _ false ?_ (by simp) rfl).bind ?_
  · intro action haction
    obtain ⟨hmem, hother⟩ := List.mem_filter.mp haction
    exact (hkinds action hmem).resolve_right (by simpa using hother)
  · intro fetched result halike
    exact .pure ⟨by simpa [hremoved] using halike.1, halike.2⟩

end Downloads

/-! ## The server manifest -/

section Fetch

variable {cycle : Cycle} {base : Manifest}

theorem own_eq_self {manifest : Manifest} (habsent : "__proto__" ∉ manifest) :
    own manifest = manifest := by
  apply Std.ExtTreeMap.ext_getElem?
  intro path
  by_cases hpath : "__proto__" = path
  · subst hpath
    rw [own, Std.ExtTreeMap.getElem?_erase_self, Std.ExtTreeMap.getElem?_eq_none habsent]
  · rw [own, Std.ExtTreeMap.getElem?_erase_of_ne _ hpath]

/-- The same manifest, or none. -/
def FetchedAlike (fetched : Except SyncEngineError Manifest)
    (result : Except CommandError Manifest × Bool) : Prop :=
  BothEnd (fun manifest manifest' =>
    manifest = manifest' ∧ result.2 = true ∧ "__proto__" ∉ manifest) fetched result.1

theorem fetchRemoteManifest_together :
    Together silent (Ordinary cycle base) FetchedAlike (Engine.fetchRemoteManifest cycle.keys)
      (fetchRemoteManifest cycle true) := by
  unfold Engine.fetchRemoteManifest fetchRemoteManifest
  apply together_perform
  intro cached hcached
  have hfilter : cached.filter (fun cache => cache.etag.isSome) = cached := by
    cases cached with
    | none => rfl
    | some cache => simp [Option.filter, (hcached cache rfl).1]
  generalize cached.filter (fun cache => cache.etag.isSome) = kept at hfilter
  subst hfilter
  simp only [getManifestIfChanged, getManifest, bearerCall, bind_assoc, if_true]
  apply together_perform
  intro answer hanswer
  cases answer with
  | error error => exact .pure (.error _ _)
  | ok answer =>
      cases answer with
      | notModified =>
          cases kept with
          | none => exact absurd rfl (hanswer.1 rfl)
          | some cache => exact .pure (.ok _ _ ⟨rfl, rfl, (hcached cache rfl).2⟩)
      | rows rows etag =>
          simp only [pure_bind]
          cases hdecode : decodeManifest cycle.keys rows with
          | error error => exact .pure (.error _ _)
          | ok manifest =>
              have habsent := hanswer.2 rows etag manifest rfl hdecode
              have hown := own_eq_self habsent
              simp only [pure_bind, Option.isSome_some, if_true]
              generalize own manifest = named at hown ⊢
              subst hown
              apply together_perform
              intro saved _
              exact .pure (.ok _ _ ⟨rfl, rfl, habsent⟩)

end Fetch

/-! ## The first half -/

/-- The clients list the same files, none of which, nor of the base, has a name
that every object has. -/
structure Readable (cycle : Cycle) (base : Manifest) : Prop where
  alike : ∀ file ∈ cycle.root.files [], TreatedAlike cycle.ignore file.1
  files : ∀ file ∈ cycle.root.scan cycle.ignore "", file.1 ∉ inherited
  base : ∀ name ∈ inherited, name ∉ base

section Prepare

variable {cycle : Cycle} {base : Manifest}

theorem foldl_erase_eq_self (names : List String) {manifest : Manifest}
    (habsent : ∀ name ∈ names, manifest[name]? = none) :
    names.foldl Std.ExtTreeMap.erase manifest = manifest := by
  induction names with
  | nil => rfl
  | cons name rest ih =>
      have herase : manifest.erase name = manifest := by
        apply Std.ExtTreeMap.ext_getElem?
        intro path
        by_cases hpath : name = path
        · subst hpath
          rw [Std.ExtTreeMap.getElem?_erase_self, habsent name List.mem_cons_self]
        · rw [Std.ExtTreeMap.getElem?_erase_of_ne _ hpath]
      rw [List.foldl_cons, herase]
      exact ih fun later hlater => habsent later (List.mem_cons_of_mem _ hlater)

theorem Readable.working_absent (hreadable : Readable cycle base) (now : Nat) {name : String}
    (hname : name ∈ inherited) :
    (Engine.buildWorkingManifest cycle.keys cycle.ignore now cycle.root.folder base)[name]? =
      none := by
  have hlisted : (buildManifest cycle.keys cycle.ignore cycle.root.folder)[name]? = none := by
    rw [← manifestOf_scan hreadable.alike, manifestOf_eq, getElem?_insertAll_of_not_mem]
    · exact Std.ExtTreeMap.getElem?_empty
    · intro file hfile entry hitem
      obtain ⟨hpath, -⟩ := Prod.mk.inj (Option.some.inj hitem)
      exact hreadable.files file hfile (hpath ▸ hname)
  rw [buildWorkingManifest_getElem?, hlisted,
    Std.ExtTreeMap.getElem?_eq_none (hreadable.base name hname)]
  rfl

theorem Readable.loadLocalState (hreadable : Readable cycle base) (now : Nat) :
    loadLocalState cycle base now =
      .ok (Engine.buildWorkingManifest cycle.keys cycle.ignore now cycle.root.folder base) := by
  have hnone : (cycle.root.scan cycle.ignore "").any (fun file => file.1 ∈ inherited) = false := by
    simpa using hreadable.files
  simp only [Web.loadLocalState, hnone, Bool.false_eq_true, if_false]
  rw [buildWorkingManifest_scan hreadable.alike,
    foldl_erase_eq_self inherited fun name hname => hreadable.working_absent now hname]

theorem withoutIgnored_eq {ignore : IgnoreRules} {manifest : Manifest}
    (habsent : manifest["__proto__"]? = none) :
    withoutIgnored ignore manifest = keep ignore manifest := by
  refine own_eq_self fun hmem => ?_
  have hsome := Std.ExtTreeMap.mem_iff_isSome_getElem?.mp hmem
  rw [keep_getElem?, habsent] at hsome
  split at hsome <;> cases hsome

theorem diff_upload_local {base working remote : Manifest} {action : SyncAction}
    (hmem : action ∈ (diffManifests base working remote).upload) :
    action.localEntry.isSome = true := by
  have hdecision := mem_diff_upload.mp hmem
  rw [decisionAt, decide3_eq] at hdecision
  split at hdecision
  next => cases hdecision
  next =>
    split at hdecision
    next => cases hdecision
    next =>
      split at hdecision
      next =>
        rw [← Decision.upload.inj hdecision]
        rfl
      next => cases hdecision

theorem diff_download_kind {base working remote : Manifest} {action : SyncAction}
    (hmem : action ∈ (diffManifests base working remote).download) :
    action.kind = .download ∨ action.kind = .deleteLocal := by
  have hdecision := mem_diff_download.mp hmem
  rw [decisionAt, decide3_eq] at hdecision
  split at hdecision
  next => cases hdecision
  next =>
    split at hdecision
    next =>
      rw [← Decision.download.inj hdecision]
      cases version remote[action.path]? with
      | gone => exact .inr rfl
      | present hash => exact .inl rfl
    next => split at hdecision <;> cases hdecision

/-- The same plan but for the texts of its failures. -/
structure PlanAlike (plan plan' : SyncPlan) : Prop where
  upload : plan.upload = plan'.upload
  download : plan.download = plan'.download
  conflicts : plan.conflicts = plan'.conflicts
  failures : plan.failures.map gist = plan'.failures.map gist

/-- The same plan, and nothing else amiss. -/
structure PlannedAlike (base : Manifest) (plan : SyncPlan) (prepared : Prepared) : Prop
    extends PlanAlike plan prepared.plan where
  base : prepared.base = base
  signedIn : prepared.signedIn = true
  listed : ∀ action ∈ plan.upload, action.localEntry.isSome = true

theorem prepareSync_together (hreadable : Readable cycle base) :
    Together silent (Ordinary cycle base) (BothEnd (PlannedAlike base))
      (Engine.prepareSync cycle.keys cycle.ignore) (prepareSync cycle) := by
  unfold Engine.prepareSync prepareSync
  apply together_perform
  intro reply hreply
  cases reply with
  | error error => exact .pure (.error _ _)
  | ok found =>
      obtain ⟨found, folder, now⟩ := found
      obtain ⟨rfl, rfl⟩ := hreply found folder now rfl
      simp only [hreadable.loadLocalState now]
      apply fetchRemoteManifest_together.bind
      rintro fetched ⟨fetched', signedIn⟩ halike
      cases halike with
      | error error error' => exact .pure (.error _ _)
      | ok remote remote' hsame =>
          obtain ⟨rfl, rfl, hproto⟩ := hsame
          have hdiff : diffManifests (withoutIgnored cycle.ignore found)
              (withoutIgnored cycle.ignore (Engine.buildWorkingManifest cycle.keys cycle.ignore
                now cycle.root.folder found)) (withoutIgnored cycle.ignore remote) =
              diffLocalAndRemote found (Engine.buildWorkingManifest cycle.keys cycle.ignore
                now cycle.root.folder found) remote cycle.ignore := by
            have hname : "__proto__" ∈ inherited := List.mem_cons_self
            rw [withoutIgnored_eq (Std.ExtTreeMap.getElem?_eq_none (hreadable.base _ hname)),
              withoutIgnored_eq (hreadable.working_absent now hname),
              withoutIgnored_eq (Std.ExtTreeMap.getElem?_eq_none hproto)]
            rfl
          simp only [hdiff]
          apply (applyDownloads_together fun action hmem => diff_download_kind hmem).bind
          intro failures result halike
          exact .pure (.ok _ _
            { upload := rfl, download := rfl, conflicts := rfl, failures := halike.1, base := rfl
              signedIn := halike.2, listed := fun action hmem => diff_upload_local hmem })

end Prepare

end ObSink.Web
