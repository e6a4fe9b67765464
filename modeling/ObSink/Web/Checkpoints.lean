import ObSink.Web.Vaults

/-! # The base of a vault in the browser

A record is loaded, held over a scan of the folder and a request, and saved as
a whole. Saves of a driver's works cannot get between each other; a listing, a
removal or a folder set anew can get between the load and the save of any of
them. In runs in which they do not, the stored base is that of the last
checkpoint.
-/

namespace ObSink.Web

/-! ## Which writes are in order -/

/-- A record is written while it is `still` good for the vault's entry, a folder
set while the vault has no record, and a record dropped while it has no entry. -/
def Point.InOrder (app : App) (still : Loaded → Prop) : Point → Prop
  | .save _ loaded | .checkpoint loaded => app.entry.isSome = true → still loaded
  | .adopt _ => app.state = none
  | .dropState => app.entry = none
  | _ => True

/-- What a driver writes is still good while it is the vault's driver and the
folder is the one the record was loaded for; what a listing writes, while no
folder was set and no checkpoint written since it loaded the record. -/
def Orderly (app : App) : Event → Prop
  | .resume number input =>
      ∀ driver work point, app.drivers[number]? = some driver → driver.work = some (work, point) →
        input.failed = false → point.InOrder app fun loaded =>
          loaded.attachment = app.attachment ∧ app.current = some number
  | .page index input =>
      ∀ point, app.pages[index]? = some point → input.failed = false →
        point.InOrder app fun loaded =>
          loaded.attachment = app.attachment ∧ loaded.checkpoints = app.checkpoints
  | _ => True

/-! ## What a step can do -/

/-- The record a function has loaded and not saved yet. -/
def Point.held : Point → Option Loaded
  | .ask loaded | .scan _ loaded | .fetch _ loaded | .download loaded | .save _ loaded =>
    some loaded
  | _ => none

/-- The same load: saving either would write the same base. -/
def Loaded.Same (loaded other : Loaded) : Prop :=
  loaded.record.base = other.record.base ∧ loaded.attachment = other.attachment ∧
    loaded.checkpoints = other.checkpoints

/-- What a load brings now. -/
def App.load (app : App) : Loaded := ⟨app.state.getD {}, app.attachment, app.checkpoints⟩

theorem fetchRemoteManifest_base {state next : VaultSyncState} {fetched : Fetched}
    {manifest : Manifest} (hfetch : state.fetchRemoteManifest fetched = some (manifest, next)) :
    next.base = state.base := by
  cases fetched with
  | notModified =>
      obtain ⟨cache, _, hpair⟩ := Option.map_eq_some_iff.mp hfetch
      rw [← (Prod.mk.inj hpair).2]
  | modified found etag =>
      rw [← (Prod.mk.inj (Option.some.inj hfetch)).2]

/-- A record that is held was held before, or has just been loaded; nothing is
written on the way. -/
theorem resume_held {app : App} {work : Work} {input : Input} {point next : Point} {loaded : Loaded}
    (hresume : app.resume work input point = some next) (hheld : next.held = some loaded) :
    app.commit input point = app ∧
      ((∃ before, point.held = some before ∧ loaded.Same before) ∨ loaded.Same app.load) := by
  unfold App.resume at hresume
  split at hresume
  next => cases hresume
  next =>
    -- a record is loaded at the first point and only carried on from there
    cases point with
    | load purpose =>
        refine ⟨by unfold App.commit; split <;> rfl, Or.inr ?_⟩
        cases purpose with
        | check =>
            simp only at hresume
            split at hresume <;>
              · obtain rfl := Option.some.inj hresume
                obtain rfl := Option.some.inj hheld
                exact ⟨rfl, rfl, rfl⟩
        | _ =>
            obtain rfl := Option.some.inj hresume
            obtain rfl := Option.some.inj hheld
            exact ⟨rfl, rfl, rfl⟩
    | ask before =>
        refine ⟨by unfold App.commit; split <;> rfl, Or.inl ⟨before, rfl, ?_⟩⟩
        simp only at hresume
        split at hresume
        next =>
          obtain rfl := Option.some.inj hresume
          cases hheld
        next manifest etag _ =>
          obtain ⟨found, hfound, rfl⟩ := Option.map_eq_some_iff.mp hresume
          obtain rfl := Option.some.inj hheld
          exact ⟨fetchRemoteManifest_base hfound, rfl, rfl⟩
    | scan purpose before =>
        refine ⟨by unfold App.commit; split <;> rfl, Or.inl ⟨before, rfl, ?_⟩⟩
        obtain rfl := Option.some.inj hresume
        obtain rfl := Option.some.inj hheld
        exact ⟨rfl, rfl, rfl⟩
    | fetch purpose before =>
        refine ⟨by unfold App.commit; split <;> rfl, Or.inl ⟨before, rfl, ?_⟩⟩
        obtain ⟨found, hfound, rfl⟩ := Option.map_eq_some_iff.mp hresume
        have hbase := fetchRemoteManifest_base hfound
        cases purpose <;>
          · obtain rfl := Option.some.inj hheld
            exact ⟨hbase, rfl, rfl⟩
    | download before =>
        refine ⟨by unfold App.commit; split <;> rfl, Or.inl ⟨before, rfl, ?_⟩⟩
        obtain rfl := Option.some.inj hresume
        obtain rfl := Option.some.inj hheld
        exact ⟨rfl, rfl, rfl⟩
    | storedVaults =>
        obtain ⟨vault, _, rfl⟩ := Option.map_eq_some_iff.mp hresume
        cases hheld
    | unlockStored =>
        obtain ⟨vault, _, rfl⟩ := Option.map_eq_some_iff.mp hresume
        cases hheld
    | dropEntry vault =>
        obtain rfl := Option.some.inj hresume
        cases vault <;> cases hheld
    | _ => grind [Point.held]

/-- What is awaited in a function of a page. -/
def Point.OnPage : Point → Prop
  | .load purpose | .scan purpose _ | .fetch purpose _ | .save purpose _ => purpose = .list
  | .storedVaults | .summaries _ | .listHandle _ | .permission | .detach _ | .forget | .dropEntry _
  | .dropHandle _ | .dropState | .dropActivity | .picked _ | .server _ | .adopt _ | .attachDevice
  | .unlockStored | .unlockServer => True
  | _ => False

theorem resume_onPage {app : App} {input : Input} {point next : Point} (hpage : point.OnPage)
    (hresume : app.resume .page input point = some next) : next.OnPage := by
  unfold App.resume at hresume
  split at hresume
  next => cases hresume
  next =>
    cases point with
    | load purpose =>
        obtain rfl : purpose = .list := hpage
        obtain rfl := Option.some.inj hresume
        rfl
    | scan purpose loaded =>
        obtain rfl := Option.some.inj hresume
        exact hpage
    | fetch purpose loaded =>
        obtain rfl : purpose = .list := hpage
        obtain ⟨found, _, rfl⟩ := Option.map_eq_some_iff.mp hresume
        rfl
    | storedVaults =>
        obtain ⟨vault, _, rfl⟩ := Option.map_eq_some_iff.mp hresume
        trivial
    | unlockStored =>
        obtain ⟨vault, _, rfl⟩ := Option.map_eq_some_iff.mp hresume
        trivial
    | dropEntry vault =>
        obtain rfl := Option.some.inj hresume
        cases vault <;> trivial
    | _ => grind [Point.OnPage]

/-- What an awaited operation can do to the records and the marks. -/
inductive App.Commits (app : App) (input : Input) : Point → App → Prop
  | nothing (point : Point) (handles : List Nat) : Commits app input point { app with handles }
  | saves (purpose : Purpose) (loaded : Loaded) (hdone : input.failed = false) :
      Commits app input (.save purpose loaded) { app with state := some loaded.record }
  | checkpoints (loaded : Loaded) (hdone : input.failed = false) :
      Commits app input (.checkpoint loaded)
        { app with
          state := some loaded.record
          checkpoints := app.checkpoints + 1
          checkpointed :=
            if app.entry.isSome ∧ loaded.attachment = app.attachment then loaded.record.base
            else app.checkpointed }
  | adopts (handleId : Nat) (hdone : input.failed = false) :
      Commits app input (.adopt handleId)
        { app with entry := some ⟨handleId⟩, attachment := app.attachment + 1, checkpointed := ∅ }
  | drops (vault : Option StoredVault) :
      Commits app input (.dropEntry vault) { app with entry := none }
  | empties (hdone : input.failed = false) :
      Commits app input .dropState { app with state := none }

theorem commit_commits (app : App) (input : Input) (point : Point) :
    app.Commits input point (app.commit input point) := by
  unfold App.commit
  split
  next => exact .nothing point app.handles
  next hdone =>
    have hdone : input.failed = false := by simpa using hdone
    cases point with
    | save purpose loaded => exact .saves purpose loaded hdone
    | checkpoint loaded => exact .checkpoints loaded hdone
    | adopt handleId => exact .adopts handleId hdone
    | dropEntry vault => exact .drops vault
    | dropHandle vault => exact .nothing _ _
    | dropState => exact .empties hdone
    | _ => exact .nothing _ app.handles

/-! ## The base follows the checkpoints -/

/-- Saving this record now would write the base of the last checkpoint. -/
def App.Fresh (app : App) (loaded : Loaded) : Prop :=
  app.entry.isSome = true → loaded.attachment = app.attachment →
    loaded.record.base = app.checkpointed

/-- What is kept by steps in order: the stored base is up to date, and so is
the record the vault's driver holds, and the record a listing holds if no
checkpoint was written since. -/
structure Consistent (app : App) : Prop where
  upToDate : app.UpToDate
  current : ∀ number, app.current = some number → number < app.drivers.length
  driver : ∀ (number : Nat) (driver : Driver) work point loaded,
    app.drivers[number]? = some driver →
    driver.work = some (work, point) → point.held = some loaded →
      loaded.attachment ≤ app.attachment ∧ (app.current = some number → app.Fresh loaded)
  page : ∀ point ∈ app.pages, point.OnPage ∧ ∀ loaded, point.held = some loaded →
    loaded.attachment ≤ app.attachment ∧ loaded.checkpoints ≤ app.checkpoints ∧
      (loaded.checkpoints = app.checkpoints → app.Fresh loaded)

section Commits

variable {app after : App} {input : Input} {point : Point}

theorem App.Commits.rest (hcommits : app.Commits input point after) :
    after.drivers = app.drivers ∧ after.pages = app.pages ∧ after.current = app.current := by
  cases hcommits <;> exact ⟨rfl, rfl, rfl⟩

theorem App.Commits.le (hcommits : app.Commits input point after) :
    app.attachment ≤ after.attachment ∧ app.checkpoints ≤ after.checkpoints := by
  cases hcommits with
  | checkpoints loaded hdone => exact ⟨Nat.le_refl _, Nat.le_succ _⟩
  | adopts handleId hdone => exact ⟨Nat.le_succ _, Nat.le_refl _⟩
  | _ => exact ⟨Nat.le_refl _, Nat.le_refl _⟩

/-- Only a checkpoint makes a record of the same attachment old. -/
theorem App.Commits.fresh (hcommits : app.Commits input point after) {loaded : Loaded}
    (hle : loaded.attachment ≤ app.attachment) (hfresh : app.Fresh loaded)
    (hcheckpoint : ∀ written, point = .checkpoint written → input.failed = false →
      app.entry.isSome = false) :
    after.Fresh loaded := by
  cases hcommits with
  | checkpoints written hdone =>
      intro hentry
      rw [hcheckpoint written rfl hdone] at hentry
      cases hentry
  | adopts handleId hdone =>
      intro _ hsame
      change loaded.attachment = app.attachment + 1 at hsame
      omega
  | drops vault =>
      intro hentry
      cases hentry
  | _ => exact hfresh

/-- What is committed in order leaves the stored base up to date. -/
theorem App.Commits.upToDate (hcommits : app.Commits input point after) (hup : app.UpToDate)
    {still : Loaded → Prop} (horder : input.failed = false → point.InOrder app still)
    (hsame : ∀ loaded, still loaded → loaded.attachment = app.attachment)
    (hheld : ∀ loaded, point.held = some loaded → still loaded → app.Fresh loaded) :
    after.UpToDate := by
  cases hcommits with
  | nothing point handles => exact hup
  | saves purpose loaded hdone =>
      intro hentry
      have hstill := horder hdone hentry
      exact hheld loaded rfl hstill hentry (hsame loaded hstill)
  | checkpoints loaded hdone =>
      intro hentry
      have hstill := horder hdone hentry
      exact (if_pos ⟨hentry, hsame loaded hstill⟩).symm
  | adopts handleId hdone =>
      intro _
      have hnone : app.state = none := horder hdone
      simp [hnone]
  | drops vault =>
      intro hentry
      cases hentry
  | empties hdone =>
      intro hentry
      rw [show app.entry = none from horder hdone] at hentry
      cases hentry

end Commits

theorem App.Fresh.same {app : App} {loaded before : Loaded} (hsame : loaded.Same before)
    (hfresh : app.Fresh before) : app.Fresh loaded := by
  intro hentry hattachment
  rw [hsame.1]
  exact hfresh hentry (hsame.2.1.symm.trans hattachment)

/-- What has just been loaded is up to date. -/
theorem App.UpToDate.fresh_load {app : App} (hup : app.UpToDate) : app.Fresh app.load :=
  fun hentry _ => hup hentry

/-! ## Steps keep it -/

/-- Nothing is written, no record is held that was not, and no driver with work
takes the place of another one. -/
structure App.Quietly (app next : App) : Prop where
  state : next.state = app.state
  entry : next.entry = app.entry
  attachment : next.attachment = app.attachment
  checkpoints : next.checkpoints = app.checkpoints
  checkpointed : next.checkpointed = app.checkpointed
  current : ∀ number, next.current = some number → number < next.drivers.length ∧
    (app.current = some number ∨ app.drivers.length ≤ number)
  driver : ∀ (number : Nat) (driver : Driver) work point loaded,
    next.drivers[number]? = some driver → driver.work = some (work, point) →
      point.held = some loaded → ∃ before : Driver, app.drivers[number]? = some before ∧
        before.work = some (work, point)
  page : ∀ point ∈ next.pages, point ∈ app.pages ∨ point.OnPage ∧ point.held = none

theorem Consistent.quietly {app next : App} (hconsistent : Consistent app)
    (hquietly : app.Quietly next) : Consistent next := by
  have hfresh : ∀ loaded, app.Fresh loaded → next.Fresh loaded := by
    intro loaded hfresh hentry hattachment
    rw [hquietly.checkpointed]
    exact hfresh (hquietly.entry ▸ hentry) (hattachment.trans hquietly.attachment)
  refine ⟨?_, fun number hcurrent => (hquietly.current number hcurrent).1, ?_, ?_⟩
  · unfold App.UpToDate
    rw [hquietly.entry, hquietly.state, hquietly.checkpointed]
    exact hconsistent.upToDate
  · intro number driver work point loaded hdriver hwork hheld
    obtain ⟨before, hbefore, hsame⟩ :=
      hquietly.driver number driver work point loaded hdriver hwork hheld
    obtain ⟨hle, hfits⟩ := hconsistent.driver number before work point loaded hbefore hsame hheld
    refine ⟨hquietly.attachment ▸ hle, fun hcurrent => hfresh loaded (hfits ?_)⟩
    rcases (hquietly.current number hcurrent).2 with hmapped | hnew
    · exact hmapped
    · rw [List.getElem?_eq_none hnew] at hbefore
      cases hbefore
  · intro point hpoint
    rcases hquietly.page point hpoint with hold | ⟨honPage, hnone⟩
    · obtain ⟨honPage, hheld⟩ := hconsistent.page point hold
      refine ⟨honPage, fun loaded hloaded => ?_⟩
      obtain ⟨hle, hcheckpoints, hfits⟩ := hheld loaded hloaded
      rw [hquietly.attachment, hquietly.checkpoints]
      exact ⟨hle, hcheckpoints, fun hsame => hfresh loaded (hfits hsame)⟩
    · refine ⟨honPage, fun loaded hloaded => ?_⟩
      rw [hnone] at hloaded
      cases hloaded

section Quiet

variable {app : App}

/-- A change of a driver that gives it no record. -/
theorem Consistent.updateDriver (hconsistent : Consistent app) (number : Nat)
    {change : Driver → Driver}
    (hwork : ∀ driver work point loaded, (change driver).work = some (work, point) →
      point.held = some loaded → driver.work = some (work, point)) :
    Consistent (app.updateDriver number change) := by
  apply hconsistent.quietly
  refine ⟨rfl, rfl, rfl, rfl, rfl, ?_, ?_, fun _ hpoint => Or.inl hpoint⟩
  · intro current hcurrent
    refine ⟨?_, Or.inl hcurrent⟩
    simpa [App.updateDriver] using hconsistent.current current hcurrent
  · intro other driver work point loaded hdriver hpoint hheld
    simp only [App.updateDriver, List.getElem?_modify] at hdriver
    cases hbefore : app.drivers[other]? with
    | none => simp [hbefore] at hdriver
    | some before =>
        refine ⟨before, rfl, ?_⟩
        rw [hbefore] at hdriver
        by_cases hsame : number = other
        · have hchange : change before = driver := by simpa [hsame] using hdriver
          exact hwork before work point loaded (hchange ▸ hpoint) hheld
        · have heq : before = driver := by simpa [hsame] using hdriver
          exact heq ▸ hpoint

theorem Consistent.driverFor (hconsistent : Consistent app) : Consistent app.driverFor.1 := by
  unfold App.driverFor
  split
  next => exact hconsistent
  next hnone =>
    apply hconsistent.quietly
    refine ⟨rfl, rfl, rfl, rfl, rfl, ?_, ?_, fun _ hpoint => Or.inl hpoint⟩
    · intro number hcurrent
      obtain rfl := Option.some.inj hcurrent
      exact ⟨by simp, Or.inr (Nat.le_refl _)⟩
    · intro number driver work point loaded hdriver hpoint _
      rcases Nat.lt_or_ge number app.drivers.length with hlt | hge
      · exact ⟨driver, by rwa [List.getElem?_append_left hlt] at hdriver, hpoint⟩
      · rw [List.getElem?_append_right hge] at hdriver
        obtain rfl := List.mem_singleton.mp (List.mem_of_getElem? hdriver)
        cases hpoint

theorem Consistent.enqueue (hconsistent : Consistent app) (job : Job) :
    Consistent (app.enqueue job) :=
  hconsistent.driverFor.updateDriver _ fun _ _ _ _ hwork _ => hwork

theorem Consistent.startDriver (hconsistent : Consistent app) : Consistent app.startDriver :=
  hconsistent.driverFor.updateDriver _ fun _ _ _ _ hwork _ => hwork

theorem Consistent.unmap (hconsistent : Consistent app) :
    Consistent { app with current := none } := by
  apply hconsistent.quietly
  refine ⟨rfl, rfl, rfl, rfl, rfl, ?_, ?_, fun _ hpoint => Or.inl hpoint⟩
  · intro number hcurrent
    cases hcurrent
  · intro number driver work point loaded hdriver hpoint _
    exact ⟨driver, hdriver, hpoint⟩

theorem Consistent.stopDriver (hconsistent : Consistent app) : Consistent app.stopDriver := by
  unfold App.stopDriver
  split
  next => exact hconsistent
  next => exact hconsistent.unmap.updateDriver _ fun _ _ _ _ hwork _ => hwork

/-- What is neither a record nor a driver nor a page. -/
theorem Consistent.keyring (hconsistent : Consistent app) (keys : Bool) (handles : List Nat) :
    Consistent { app with keys, handles } :=
  ⟨hconsistent.upToDate, hconsistent.current, hconsistent.driver, hconsistent.page⟩

theorem Consistent.openPage (hconsistent : Consistent app) {point : Point} (hpage : point.OnPage)
    (hnone : point.held = none) : Consistent (app.openPage point) := by
  refine ⟨hconsistent.upToDate, hconsistent.current, hconsistent.driver, ?_⟩
  intro other hother
  rcases List.mem_append.mp hother with hold | hnew
  · exact hconsistent.page other hold
  · obtain rfl := List.mem_singleton.mp hnew
    exact ⟨hpage, fun loaded hloaded => by rw [hnone] at hloaded; cases hloaded⟩

theorem Consistent.tick {next : App} (hconsistent : Consistent app) {number : Nat} {skips : Bool}
    (hstep : app.tick number skips = some next) : Consistent next := by
  unfold App.tick at hstep
  split at hstep
  next => cases hstep
  next =>
    split at hstep
    next => cases hstep
    next =>
      split at hstep
      next =>
        obtain rfl := Option.some.inj hstep
        exact hconsistent.updateDriver number fun _ _ _ _ hwork _ => hwork
      next =>
        split at hstep
        next =>
          obtain rfl := Option.some.inj hstep
          exact hconsistent
        next =>
          obtain rfl := Option.some.inj hstep
          exact hconsistent.updateDriver number fun _ _ _ _ hwork _ => hwork

theorem Driver.start_held {driver next : Driver} (hstart : driver.start = some next) {work : Work}
    {point : Point} (hwork : next.work = some (work, point)) : point.held = none := by
  unfold Driver.start at hstart
  split at hstart
  next =>
    obtain rfl := Option.some.inj hstart
    obtain ⟨_, rfl⟩ := Prod.mk.inj (Option.some.inj hwork)
    rfl
  next =>
    obtain rfl := Option.some.inj hstart
    obtain ⟨_, rfl⟩ := Prod.mk.inj (Option.some.inj hwork)
    rfl
  next hidle _ =>
    split at hstart
    next =>
      obtain rfl := Option.some.inj hstart
      rw [show driver.work = none from hidle] at hwork
      cases hwork
    next =>
      obtain rfl := Option.some.inj hstart
      obtain ⟨_, rfl⟩ := Prod.mk.inj (Option.some.inj hwork)
      rfl
  next => cases hstart

end Quiet

theorem Driver.carryOn_work (driver : Driver) (mapped : Bool) (work : Work) (input : Input)
    (point : Point) (next : Option Point) :
    (driver.carryOn mapped work input point next).work = next.map fun point => (work, point) := by
  unfold Driver.carryOn
  simp only
  split <;> split <;> (try split) <;> rfl

/-- One `await` of a driver's work. -/
theorem Consistent.resume {app : App} (hconsistent : Consistent app) {number : Nat} {input : Input}
    {driver : Driver} {work : Work} {point : Point} (hdriver : app.drivers[number]? = some driver)
    (hwork : driver.work = some (work, point))
    (horder : input.failed = false → point.InOrder app fun loaded =>
      loaded.attachment = app.attachment ∧ app.current = some number) :
    Consistent ((app.commit input point).updateDriver number fun driver =>
      driver.carryOn app.current.isSome work input point (app.resume work input point)) := by
  have hcommits := commit_commits app input point
  obtain ⟨hdrivers, hpages, hcurrent⟩ := hcommits.rest
  obtain ⟨hattachments, hcheckpoints⟩ := hcommits.le
  refine ⟨?_, ?_, ?_, ?_⟩
  · apply hcommits.upToDate hconsistent.upToDate horder (fun _ hstill => hstill.1)
    intro loaded hheld hstill
    exact (hconsistent.driver number driver work point loaded hdriver hwork hheld).2 hstill.2
  · intro current hmapped
    simp only [App.updateDriver, List.length_modify, hdrivers]
    exact hconsistent.current current (hcurrent ▸ hmapped)
  · intro other later work' point' loaded hlater hwork' hheld
    simp only [App.updateDriver, hdrivers, List.getElem?_modify] at hlater
    by_cases hsame : number = other
    · subst hsame
      have hnext : app.resume work input point = some point' := by
        have hchange : driver.carryOn app.current.isSome work input point
            (app.resume work input point) = later := by simpa [hdriver] using hlater
        rw [← hchange, Driver.carryOn_work] at hwork'
        obtain ⟨_, hnext, hpair⟩ := Option.map_eq_some_iff.mp hwork'
        rw [hnext, (Prod.mk.inj hpair).2]
      obtain ⟨hunwritten, hcases⟩ := resume_held hnext hheld
      simp only [App.updateDriver, hunwritten]
      rcases hcases with ⟨before, hbefore, hload⟩ | hload
      · obtain ⟨hle, hfits⟩ :=
          hconsistent.driver number driver work point before hdriver hwork hbefore
        refine ⟨hload.2.1 ▸ hle, fun hmapped => ?_⟩
        exact App.Fresh.same hload (hfits hmapped)
      · exact ⟨Nat.le_of_eq hload.2.1, fun _ =>
          App.Fresh.same hload hconsistent.upToDate.fresh_load⟩
    · have hbefore : app.drivers[other]? = some later := by simpa [hsame] using hlater
      obtain ⟨hle, hfits⟩ := hconsistent.driver other later work' point' loaded hbefore hwork' hheld
      refine ⟨hle.trans hattachments, fun hmapped => ?_⟩
      have hmapped : app.current = some other := hcurrent ▸ hmapped
      apply hcommits.fresh hle (hfits hmapped)
      intro written hpoint hdone
      -- the vault's driver is another one, so this checkpoint is of a vault that is gone
      by_contra hentry
      have hstill := horder hdone
      rw [hpoint] at hstill
      have hother := (hstill (Bool.eq_true_of_not_eq_false hentry)).2
      rw [hmapped] at hother
      exact hsame (Option.some.inj hother).symm
  · intro other hother
    obtain ⟨honPage, hheld⟩ := hconsistent.page other (hpages ▸ hother)
    refine ⟨honPage, fun loaded hloaded => ?_⟩
    obtain ⟨hle, hbound, hfits⟩ := hheld loaded hloaded
    refine ⟨hle.trans hattachments, hbound.trans hcheckpoints, fun hsame => ?_⟩
    have hsame : loaded.checkpoints = (app.commit input point).checkpoints := hsame
    apply hcommits.fresh hle (hfits (Nat.le_antisymm hbound (hsame ▸ hcheckpoints)))
    intro written hpoint hdone
    subst hpoint
    simp only [App.commit, hdone, Bool.false_eq_true, ↓reduceIte] at hsame
    omega

/-- One `await` of a function of a page, before what it does in memory. -/
theorem Consistent.commitPage {app : App} (hconsistent : Consistent app) {index : Nat}
    {input : Input} {point : Point} (hpoint : app.pages[index]? = some point)
    (horder : input.failed = false → point.InOrder app fun loaded =>
      loaded.attachment = app.attachment ∧ loaded.checkpoints = app.checkpoints) :
    Consistent (app.commit input point) := by
  have hcommits := commit_commits app input point
  obtain ⟨hdrivers, hpages, hcurrent⟩ := hcommits.rest
  obtain ⟨hattachments, hcheckpoints⟩ := hcommits.le
  obtain ⟨hpage, hheld⟩ := hconsistent.page point (List.mem_of_getElem? hpoint)
  have hno : ∀ written, point = .checkpoint written → input.failed = false →
      app.entry.isSome = false := by
    intro written heq
    rw [heq] at hpage
    exact hpage.elim
  refine ⟨?_, ?_, ?_, ?_⟩
  · apply hcommits.upToDate hconsistent.upToDate horder (fun _ hstill => hstill.1)
    intro loaded hloaded hstill
    exact (hheld loaded hloaded).2.2 hstill.2
  · intro number hmapped
    rw [hdrivers]
    exact hconsistent.current number (hcurrent ▸ hmapped)
  · intro number driver work other loaded hdriver hwork hloaded
    rw [hdrivers] at hdriver
    obtain ⟨hle, hfits⟩ := hconsistent.driver number driver work other loaded hdriver hwork hloaded
    refine ⟨hle.trans hattachments, fun hmapped => ?_⟩
    exact hcommits.fresh hle (hfits (hcurrent ▸ hmapped)) hno
  · intro other hother
    obtain ⟨honPage, hkept⟩ := hconsistent.page other (hpages ▸ hother)
    refine ⟨honPage, fun loaded hloaded => ?_⟩
    obtain ⟨hle, hbound, hfits⟩ := hkept loaded hloaded
    refine ⟨hle.trans hattachments, hbound.trans hcheckpoints, fun hsame => ?_⟩
    exact hcommits.fresh hle (hfits (Nat.le_antisymm hbound (hsame ▸ hcheckpoints))) hno

theorem Consistent.carryOn {app : App} (hconsistent : Consistent app) (input : Input)
    (point : Point) : Consistent (app.carryOn input point) := by
  unfold App.carryOn
  split
  next => exact hconsistent
  next =>
    split
    next => exact hconsistent.stopDriver.keyring false _
    next => exact hconsistent.keyring true app.handles
    next => exact hconsistent.startDriver
    next =>
      split
      next => exact hconsistent
      next => exact (hconsistent.keyring true app.handles).startDriver
    next => exact hconsistent

/-- What happens in memory leaves pages, records and marks alone. -/
theorem carryOn_rest (app : App) (input : Input) (point : Point) :
    (app.carryOn input point).pages = app.pages ∧
      (app.carryOn input point).entry = app.entry ∧
      (app.carryOn input point).attachment = app.attachment ∧
      (app.carryOn input point).checkpoints = app.checkpoints ∧
      (app.carryOn input point).checkpointed = app.checkpointed := by
  have hstart : ∀ app : App, app.startDriver.pages = app.pages ∧ app.startDriver.entry = app.entry ∧
      app.startDriver.attachment = app.attachment ∧ app.startDriver.checkpoints = app.checkpoints ∧
      app.startDriver.checkpointed = app.checkpointed := by
    intro app
    unfold App.startDriver App.driverFor
    cases app.current <;> exact ⟨rfl, rfl, rfl, rfl, rfl⟩
  unfold App.carryOn
  split
  next => exact ⟨rfl, rfl, rfl, rfl, rfl⟩
  next =>
    split
    next =>
      unfold App.stopDriver
      cases app.current <;> exact ⟨rfl, rfl, rfl, rfl, rfl⟩
    next => exact ⟨rfl, rfl, rfl, rfl, rfl⟩
    next => exact hstart app
    next =>
      split
      next => exact ⟨rfl, rfl, rfl, rfl, rfl⟩
      next => exact hstart { app with keys := true }
    next => exact ⟨rfl, rfl, rfl, rfl, rfl⟩

theorem Consistent.page_step {app next : App} (hconsistent : Consistent app) {index : Nat}
    {input : Input} (horder : Orderly app (.page index input))
    (hstep : app.step (.page index input) = some next) : Consistent next := by
  simp only [App.step] at hstep
  split at hstep
  next => cases hstep
  next point hpoint =>
    have hafter := (hconsistent.commitPage hpoint (horder point hpoint)).carryOn input point
    obtain ⟨hpages, hentry, hattachment, hcheckpoints, hcheckpointed⟩ :=
      carryOn_rest (app.commit input point) input point
    obtain ⟨hpage, hheld⟩ := hconsistent.page point (List.mem_of_getElem? hpoint)
    split at hstep
    next later hresume =>
      obtain rfl := Option.some.inj hstep
      refine ⟨hafter.upToDate, hafter.current, hafter.driver, ?_⟩
      intro other hother
      rcases List.mem_or_eq_of_mem_set hother with hold | rfl
      · exact hafter.page other hold
      · refine ⟨resume_onPage hpage hresume, fun loaded hloaded => ?_⟩
        obtain ⟨hunwritten, hcases⟩ := resume_held hresume hloaded
        rw [hunwritten] at hattachment hcheckpoints hcheckpointed hentry ⊢
        have hmarks : ∀ loaded, app.Fresh loaded → (app.carryOn input point).Fresh loaded := by
          intro loaded hfresh hstored hsame
          rw [hcheckpointed]
          exact hfresh (hentry ▸ hstored) (hsame.trans hattachment)
        change loaded.attachment ≤ (app.carryOn input point).attachment ∧
          loaded.checkpoints ≤ (app.carryOn input point).checkpoints ∧
            (loaded.checkpoints = (app.carryOn input point).checkpoints →
              (app.carryOn input point).Fresh loaded)
        rw [hattachment, hcheckpoints]
        rcases hcases with ⟨before, hbefore, hload⟩ | hload
        · obtain ⟨hle, hbound, hfits⟩ := hheld before hbefore
          rw [hload.2.1, hload.2.2]
          exact ⟨hle, hbound, fun hsame => hmarks loaded (App.Fresh.same hload (hfits hsame))⟩
        · refine ⟨Nat.le_of_eq hload.2.1, Nat.le_of_eq hload.2.2, fun _ => ?_⟩
          exact hmarks loaded (App.Fresh.same hload hconsistent.upToDate.fresh_load)
    next =>
      obtain rfl := Option.some.inj hstep
      refine ⟨hafter.upToDate, hafter.current, hafter.driver, ?_⟩
      intro other hother
      exact hafter.page other (List.mem_of_mem_eraseIdx hother)

/-- Steps in order keep the stored base up to date. -/
theorem Consistent.step {app next : App} (hconsistent : Consistent app) {event : Event}
    (horder : Orderly app event) (hstep : app.step event = some next) : Consistent next := by
  cases event with
  | page index input => exact hconsistent.page_step horder hstep
  | resume number input =>
      simp only [App.step] at hstep
      split at hstep
      next => cases hstep
      next driver hdriver =>
        obtain ⟨⟨work, point⟩, hwork, rfl⟩ := Option.map_eq_some_iff.mp hstep
        exact hconsistent.resume hdriver hwork (horder driver work point hdriver hwork)
  | tick number skips => exact hconsistent.tick hstep
  | syncVault =>
      obtain rfl := Option.some.inj hstep
      exact hconsistent.enqueue .sync
  | resolveConflict =>
      obtain rfl := Option.some.inj hstep
      exact hconsistent.enqueue .resolve
  | wake =>
      simp only [App.step] at hstep
      split at hstep
      next =>
        obtain rfl := Option.some.inj hstep
        exact hconsistent
      next number _ =>
        obtain rfl := Option.some.inj hstep
        exact hconsistent.updateDriver number fun _ _ _ _ hwork _ => hwork
  | start number =>
      obtain ⟨driver, hdriver, rfl⟩ := Option.map_eq_some_iff.mp hstep
      obtain ⟨before, _, hstart⟩ := Option.bind_eq_some_iff.mp hdriver
      apply hconsistent.updateDriver number
      intro _ work point loaded hwork hheld
      -- a driver that starts holds no base yet
      rw [Driver.start_held hstart hwork] at hheld
      cases hheld
  | listVaults =>
      obtain rfl := Option.some.inj hstep
      exact hconsistent.openPage trivial rfl
  | removeVault =>
      simp only [App.step] at hstep
      split at hstep
      next => cases hstep
      next =>
        obtain rfl := Option.some.inj hstep
        exact hconsistent.openPage trivial rfl
  | deleteRemoteVault =>
      simp only [App.step] at hstep
      split at hstep
      next => cases hstep
      next =>
        obtain rfl := Option.some.inj hstep
        exact hconsistent.openPage trivial rfl
  | forgetVault =>
      obtain rfl := Option.some.inj hstep
      exact hconsistent.openPage trivial rfl
  | addVault handleId =>
      obtain rfl := Option.some.inj hstep
      exact hconsistent.openPage trivial rfl
  | unlockVaults =>
      obtain rfl := Option.some.inj hstep
      exact hconsistent.openPage trivial rfl
  | pickFolder handleId =>
      obtain rfl := Option.some.inj hstep
      exact hconsistent.keyring app.keys _
  | forgetAccountKey =>
      obtain rfl := Option.some.inj hstep
      exact hconsistent.keyring false app.handles
  | signOut =>
      obtain rfl := Option.some.inj hstep
      split
      next => exact hconsistent.stopDriver.keyring false _
      next => exact hconsistent.keyring false _

theorem consistent_start : Consistent {} := by
  refine ⟨fun _ => rfl, ?_, ?_, ?_⟩
  · intro number hcurrent
    cases hcurrent
  · intro number driver work point loaded hdriver
    cases hdriver
  · intro point hpoint
    cases hpoint

/-- In every run whose writes are in order the stored base of a vault is that
of the last checkpoint since its folder was set. -/
theorem base_follows_checkpoints_in_order {app : App} (hreach : ReachableWhen Orderly app) :
    app.UpToDate := by
  suffices hconsistent : Consistent app from hconsistent.upToDate
  induction hreach with
  | refl => exact consistent_start
  | tail _ hstep ih =>
      obtain ⟨event, horder, hnext⟩ := hstep
      exact ih.step horder hnext

/-! ## Two runs -/

/-- `InOrder`, computed. -/
def Point.inOrder (app : App) (still : Loaded → Bool) : Point → Bool
  | .save _ loaded | .checkpoint loaded => app.entry.isNone || still loaded
  | .adopt _ => app.state.isNone
  | .dropState => app.entry.isNone
  | _ => true

/-- `Orderly`, computed. -/
def orderly (app : App) : Event → Bool
  | .resume number input =>
      ((app.drivers[number]?).bind Driver.work).all fun (_, point) =>
        input.failed || point.inOrder app fun loaded =>
          loaded.attachment = app.attachment && app.current = some number
  | .page index input =>
      (app.pages[index]?).all fun point =>
        input.failed || point.inOrder app fun loaded =>
          loaded.attachment = app.attachment && loaded.checkpoints = app.checkpoints
  | _ => true

theorem Point.inOrder_iff {app : App} {still : Loaded → Bool} {point : Point} :
    point.inOrder app still = true ↔ point.InOrder app fun loaded => still loaded = true := by
  cases point <;> simp [Point.inOrder, Point.InOrder] <;> cases app.entry <;> simp

theorem orderly_sound {app : App} {event : Event} (hcheck : orderly app event = true) :
    Orderly app event := by
  cases event with
  | resume number input =>
      intro driver work point hdriver hwork hdone
      simp only [orderly, hdriver, Option.bind_some, hwork, Option.all_some, hdone, Bool.false_or,
        Point.inOrder_iff, Bool.and_eq_true, decide_eq_true_eq] at hcheck
      exact hcheck
  | page index input =>
      intro point hpoint hdone
      simp only [orderly, hpoint, Option.all_some, hdone, Bool.false_or, Point.inOrder_iff,
        Bool.and_eq_true, decide_eq_true_eq] at hcheck
      exact hcheck
  | _ => trivial

/-- A run whose steps all pass the check. -/
def App.runWhen (check : App → Event → Bool) (app : App) : List Event → Option App
  | [] => some app
  | event :: rest =>
      if check app event then (app.step event).bind fun next => next.runWhen check rest else none

theorem runWhen_reaches {check : App → Event → Bool} {condition : App → Event → Prop}
    (hcheck : ∀ app event, check app event = true → condition app event) {app last : App}
    {events : List Event} (hrun : app.runWhen check events = some last) :
    Relation.ReflTransGen (StepsWhen condition) app last := by
  induction events generalizing app with
  | nil =>
      obtain rfl := Option.some.inj hrun
      exact .refl
  | cons event rest ih =>
      simp only [App.runWhen] at hrun
      split at hrun
      next hmeets =>
        obtain ⟨next, hstep, hrest⟩ := Option.bind_eq_some_iff.mp hrun
        exact .head ⟨event, hcheck app event hmeets, hstep⟩ (ih hrest)
      next => cases hrun

/-- A folder is picked and a vault added; the timer of its driver has fired. -/
def vaultAdded : List Event :=
  [.pickFolder 1, .addVault 1, .page 0 {}, .page 0 {}, .page 0 {}, .page 0 {},
    .tick 0 false, .start 0]

/-- The server manifest of the runs. -/
def notes : Fetched := .modified ((∅ : Manifest).insert "note" { hash := "h" }) (some "\"1\"")

/-- The poll, from its first `await` to its last. -/
def pollRuns : List Event :=
  List.replicate 8 (.resume 0 {}) ++ [.resume 0 { fetched := notes }] ++
    List.replicate 3 (.resume 0 {}) ++ [.resume 0 { fetched := notes }] ++
    List.replicate 3 (.resume 0 {})

/-- A listing that has loaded the record, and its rest. -/
def listingLoads : List Event := .listVaults :: List.replicate 5 (.page 0 {})

def listingSaves : List Event := [.page 0 {}, .page 0 { fetched := notes }, .page 0 {}]

theorem base_follows_checkpoint_of_sample :
    ∃ app, App.runWhen orderly {}
      (vaultAdded ++ pollRuns ++ listingLoads ++ listingSaves) = some app ∧
      app.entry.isSome = true ∧ app.checkpointed ≠ ∅ ∧ app.pages = [] ∧ app.UpToDate := by
  have hrun : (App.runWhen orderly {} (vaultAdded ++ pollRuns ++ listingLoads ++ listingSaves)).any
      (fun app => app.entry.isSome && app.checkpointed ≠ ∅ && app.pages = []) = true := by
    decide +kernel
  obtain ⟨app, hlast, hfacts⟩ := (Option.any_eq_true _ _).mp hrun
  simp only [Bool.and_eq_true, decide_eq_true_eq] at hfacts
  refine ⟨app, hlast, hfacts.1.1, hfacts.1.2, hfacts.2, base_follows_checkpoints_in_order ?_⟩
  exact runWhen_reaches (fun _ _ => orderly_sound) hlast

/-- A listing loads the record while a poll is looking for changes, the cycle of
the poll writes its checkpoint, and the listing saves the record it loaded: the
base is the empty one again. -/
theorem listing_brings_back_base_in_sample :
    ¬∀ app, ReachableWhen (fun _ _ => True) app → app.UpToDate := by
  intro hall
  have hrun : (App.runWhen (fun _ _ => true) {}
      (vaultAdded ++ listingLoads ++ pollRuns ++ listingSaves)).any
      (fun app => app.entry.isSome && (app.state.getD {}).base ≠ app.checkpointed) = true := by
    decide +kernel
  obtain ⟨app, hlast, hfacts⟩ := (Option.any_eq_true _ _).mp hrun
  simp only [Bool.and_eq_true, decide_eq_true_eq] at hfacts
  exact hfacts.2 (hall app (runWhen_reaches (fun _ _ _ => trivial) hlast) hfacts.1)

end ObSink.Web
