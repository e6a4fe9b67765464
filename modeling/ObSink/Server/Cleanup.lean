import ObSink.Server.Storage

/-! # Removing the blobs of a vault

The row of a vault goes first and its directories follow, with nothing held in
between; a sweep looks for the row and removes the directory later. As long as
no vault comes back under an id whose directories are being removed, no
removal touches a vault that exists.
-/

namespace ObSink.Server.Storage

/-- The vaults whose directories a job is about to remove. -/
def Job.removing : Job → List String
  | .remove dirs => dirs.map (·.2)
  | .sweep dir _ => [dir.2]
  | _ => []

/-- The directory that a job removes in its next step. -/
def Job.removes : Job → Option Dir
  | .remove (dir :: _) => some dir
  | .sweep dir _ => some dir
  | _ => none

theorem Job.mem_removing {job : Job} {dir : Dir} (hremoves : job.removes = some dir) :
    dir.2 ∈ job.removing := by
  unfold Job.removes at hremoves
  unfold Job.removing
  split at hremoves <;> simp_all

/-- A vault is created only under an id whose directories nobody is about to
remove. -/
def World.settled (w : World) : Event → Bool
  | .step id =>
      match w.jobs.job id with
      | some (.create tx) =>
          tx.phase ≠ .commit || !w.jobs.anyOther id fun job => job.removing.contains tx.id
      | _ => true
  | _ => true

/-! ## What a job leaves behind -/

/-- The vaults a job removes are gone, and those it will remove it has deleted. -/
def Job.Clears (db : Db) : Job → Prop
  | .account tx => ∀ id ∈ tx.returned, id ∈ tx.deleted
  | job => ∀ id ∈ job.removing, db.has id = false

/-- A job stays as it is when no vault comes back under an id it removes. -/
theorem Job.Clears.mono {db db' : Db} {job : Job} (h : job.Clears db)
    (hdb : ∀ id ∈ job.removing, db.has id = false → db'.has id = false) : job.Clears db' := by
  cases job with
  | account tx => exact h
  | write | create | deleteVault | remove | walk | check | sweep =>
      intro id hid
      exact hdb id hid (h id hid)

variable {config : StorageConfig} {w w' : World}

theorem Job.New.clears {job : Job} (h : job.New config) (db : Db) : job.Clears db := by
  cases job with
  | account tx => simp [Job.Clears, h.1]
  | write | create | deleteVault | walk => simp [Job.Clears, Job.removing]
  | remove | check | sweep => cases h

theorem mem_dirsOf {vaultId : String} {dir : Dir} (hdir : dir ∈ dirsOf vaultId) :
    dir.2 = vaultId := by
  simp only [dirsOf, List.mem_cons, List.not_mem_nil, or_false] at hdir
  grind

section

variable {held : Held} {db : Db} {blobs : Blobs} {ran : Ran}

/-- Only the commit of a create brings a vault back. -/
theorem Job.run_has {job : Job} (hran : job.run config held db blobs = some ran) {id : String}
    (hnone : db.has id = false) :
    ran.db.has id = false ∨ ∃ tx, job = .create tx ∧ tx.phase = .commit ∧ tx.id = id := by
  obtain hvaults | ⟨tx, entry, -, -, -, -, hdb⟩ | ⟨tx, rfl, hphase, -, hdb⟩ | ⟨ids, hvaults, -⟩ :=
    Job.run_db hran
  · left
    rwa [Db.has, hvaults, ← Db.has]
  · left
    rw [hdb, Db.has_upsert, hnone]
  · by_cases hsame : tx.id = id
    · exact Or.inr ⟨tx, rfl, hphase, hsame⟩
    · left
      simpa [hdb, Db.has, CreateTx.row, hsame] using hnone
  · left
    rw [Db.has, hvaults, ← Db.has]
    exact Db.has_without (Or.inl hnone)

/-- The directories of vaults that are gone. -/
theorem Job.clears_remove {vaultIds : List String} (hgone : ∀ id ∈ vaultIds, db.has id = false) :
    (Job.remove (vaultIds.flatMap dirsOf)).Clears db := by
  intro id hid
  simp only [Job.removing, List.mem_map, List.mem_flatMap] at hid
  obtain ⟨dir, ⟨vaultId, hmem, hdir⟩, rfl⟩ := hid
  rw [mem_dirsOf hdir]
  exact hgone vaultId hmem

theorem AccountTx.clears_run {tx : AccountTx} (h : (Job.account tx).Clears db)
    (hran : tx.run held db blobs = some ran) {next : Job} (hnext : ran.job = some next) :
    next.Clears ran.db := by
  unfold AccountTx.run at hran
  cases hphase : tx.phase with
  | vaults =>
      simp only [hphase] at hran
      split at hran
      next => cases hran
      next =>
        obtain rfl := Option.some.inj hran
        obtain rfl := Option.some.inj hnext
        exact fun id hid => hid
  | user =>
      simp only [hphase] at hran
      split at hran
      next => cases hran
      next =>
        obtain rfl := Option.some.inj hran
        obtain rfl := Option.some.inj hnext
        exact fun id hid => List.mem_append_left _ (h id hid)
  | commit =>
      simp only [hphase] at hran
      obtain rfl := Option.some.inj hran
      obtain rfl := Option.some.inj hnext
      exact Job.clears_remove fun id hid => Db.has_without (Or.inr (h id hid))

theorem clears_runDeleteVault {userId vaultId : String} {owner : Bool}
    (hran : runDeleteVault held db blobs userId vaultId owner = some ran) {next : Job}
    (hnext : ran.job = some next) : next.Clears ran.db := by
  unfold runDeleteVault at hran
  split at hran
  next =>
    split at hran
    next => cases hran
    next =>
      split at hran <;> obtain rfl := Option.some.inj hran
      next =>
        obtain rfl := Option.some.inj hnext
        have hgone : ∀ id ∈ [vaultId], (db.without [vaultId]).has id = false :=
          fun id hid => Db.has_without (Or.inr hid)
        simpa using Job.clears_remove hgone
      next => cases hnext
  next =>
    have hsame : next = .deleteVault userId vaultId true := by
      grind
    simp [hsame, Job.Clears, Job.removing]

/-- What a job goes on with clears what it will remove. -/
theorem Job.Clears.run {job next : Job} (h : job.Clears db)
    (hran : job.run config held db blobs = some ran) (hnext : ran.job = some next) :
    next.Clears ran.db := by
  cases job with
  | write tx =>
      obtain ⟨-, hnone | ⟨after, hafter⟩⟩ | ⟨entry, -, -, hnone, -⟩ := WriteTx.run_cases hran
      · rw [hnone] at hnext
        cases hnext
      · obtain rfl := Option.some.inj (hafter.symm.trans hnext)
        simp [Job.Clears, Job.removing]
      · rw [hnone] at hnext
        cases hnext
  | create tx =>
      obtain ⟨-, hnone | ⟨phase, hafter⟩⟩ | ⟨-, hnone, -⟩ := CreateTx.run_cases hran
      · rw [hnone] at hnext
        cases hnext
      · obtain rfl := Option.some.inj (hafter.symm.trans hnext)
        simp [Job.Clears, Job.removing]
      · rw [hnone] at hnext
        cases hnext
  | account tx => exact AccountTx.clears_run h hran hnext
  | deleteVault userId vaultId owner => exact clears_runDeleteVault hran hnext
  | remove dirs =>
      cases dirs with
      | nil =>
          obtain rfl := Option.some.inj hran
          cases hnext
      | cons dir rest =>
          obtain rfl := Option.some.inj hran
          obtain rfl := Option.some.inj hnext
          exact fun id hid => h id (List.mem_cons_of_mem _ hid)
  | walk found | sweep dir rest =>
      obtain rfl := Option.some.inj hran
      obtain rfl := Option.some.inj hnext
      simp [Job.Clears, Job.removing]
  | check candidates =>
      cases candidates with
      | nil =>
          obtain rfl := Option.some.inj hran
          cases hnext
      | cons dir rest =>
          simp only [Job.run] at hran
          split at hran <;> obtain rfl := Option.some.inj hran <;>
            obtain rfl := Option.some.inj hnext
          next => simp [Job.Clears, Job.removing]
          next hnone =>
            intro id hid
            obtain rfl := List.mem_singleton.mp hid
            exact Bool.eq_false_iff.mpr hnone

end

/-! ## Every run -/

/-- Every vault that is being removed is gone. -/
def World.Cleared (w : World) : Prop := w.jobs.All (Job.Clears w.db)

theorem World.Cleared.step (h : w.Cleared) {event : Event} (hok : w.settled event = true)
    (hstep : w.step config event = some w') : w'.Cleared := by
  obtain ⟨new, hnew, rfl⟩ | ⟨id, job, ran, rfl, hjob, hran, rfl⟩ | ⟨hvaults, hjobs⟩ :=
    World.step_cases hstep
  · exact Pool.All.add h (hnew.clears w.db)
  · refine Pool.All.put_of_imp h (fun next hnext => (h id job hjob).run hran hnext) ?_
    intro other found hother hfound hclears
    apply hclears.mono
    intro vaultId hremoving hnone
    obtain hstill | ⟨tx, rfl, hphase, rfl⟩ := Job.run_has hran hnone
    · exact hstill
    · -- the vault would come back while this job is about to remove it
      have hfree : (w.jobs.anyOther id fun job => job.removing.contains tx.id) = false := by
        simpa [World.settled, hjob, hphase] using hok
      have hnot := Pool.of_anyOther_eq_false hfree hother hfound
      simp [hremoving] at hnot
  · have hsame : ∀ job : Job, job.Clears w.db → job.Clears w'.db := by
      intro job hclears
      apply hclears.mono
      intro id _ hid
      simpa only [Db.has, hvaults] using hid
    obtain hjobs | ⟨id, next, hjobs, hnext⟩ := hjobs
    · intro id job hjob
      exact hsame job (h id job (hjobs ▸ hjob))
    · rw [Cleared, hjobs]
      refine Pool.All.put_of_imp h ?_ ?_
      · intro job hjob
        obtain ⟨found, rfl⟩ := hnext job hjob
        simp [Job.Clears, Job.removing]
      · intro _ job _ _
        exact hsame job

theorem removeDir_of_ne (blobs : Blobs) {dir : Dir} {vaultId : String} (hne : vaultId ≠ dir.2) :
    removeDir blobs dir vaultId = blobs vaultId := by
  rw [removeDir, Function.update_of_ne hne]

/-- A removal changes one vault's blobs. -/
theorem Job.run_removes {held : Held} {db : Db} {blobs : Blobs} {job : Job} {ran : Ran} {dir : Dir}
    (hremoves : job.removes = some dir) (hran : job.run config held db blobs = some ran) :
    ran.blobs = removeDir blobs dir := by
  unfold Job.removes at hremoves
  split at hremoves
  next =>
    obtain rfl := Option.some.inj hremoves
    obtain rfl := Option.some.inj hran
    rfl
  next =>
    obtain rfl := Option.some.inj hremoves
    obtain rfl := Option.some.inj hran
    rfl
  next => cases hremoves

/-- When no vault is created under an id whose directories somebody is about to
remove, every removal is of a vault that has no row, and the blobs of every
vault that has one stay. -/
theorem removals_spare_vaults
    (h : Runs.Reaches (World.step config) (fun w event => w.settled event = true) .start w)
    {id : Nat} {job : Job} {dir : Dir} (hjob : w.jobs.job id = some job)
    (hremoves : job.removes = some dir) (hstep : w.step config (.step id) = some w') :
    ∀ row ∈ w.db.vaults, row.vault.id ≠ dir.2 ∧ w'.blobs row.vault.id = w.blobs row.vault.id := by
  have hclears : w.Cleared := by
    have hstart : World.Cleared .start := Pool.All.empty
    exact h.invariant hstart (fun _ _ _ hbefore hok hnext => hbefore.step hok hnext)
  have hgone : w.db.has dir.2 = false := by
    have hjobClears := hclears id job hjob
    cases job with
    | account tx => cases hremoves
    | write | create | deleteVault | remove | walk | check | sweep =>
        exact hjobClears dir.2 (Job.mem_removing hremoves)
  intro row hrow
  have hne : row.vault.id ≠ dir.2 := Db.has_eq_false.mp hgone row hrow
  refine ⟨hne, ?_⟩
  obtain ⟨ran, hran, hnext⟩ : ∃ ran, job.run config (w.held config id) w.db w.blobs = some ran ∧
      w'.blobs = ran.blobs := by
    simp only [World.step, hjob] at hstep
    obtain ⟨ran, hran, rfl⟩ := Option.map_eq_some_iff.mp hstep
    exact ⟨ran, hran, rfl⟩
  rw [hnext, Job.run_removes hremoves hran, removeDir_of_ne w.blobs hne]

/-! ## A vault that comes back -/

/-- One vault is written and another one deleted. -/
def apart : List Event :=
  signedUp ++ created 0 emptyVault.id ++ written 1 emptyVault.id ++ created 2 otherVaultId ++
    deleted 3 otherVaultId

/-- A vault is deleted, and created and written again before its directories
are removed. -/
def cameBack : List Event :=
  signedUp ++ created 0 emptyVault.id ++ deleted 1 emptyVault.id ++ created 2 emptyVault.id ++
    written 3 emptyVault.id

/-- Whether the first vault and its `note` are there at the end of a run, which
directory the job `id` removes next, and whether `note` is there after that. -/
def survives (test : World → Event → Bool) (events : List Event) (id : Nat) :
    Option (Bool × Option Dir × Option Bool) :=
  (Runs.run (World.step sampleStorage) test .start events).map fun w =>
    (w.db.has emptyVault.id && ((w.blobs emptyVault.id).live "note").isSome,
      (w.jobs.job id).bind Job.removes,
      (w.step sampleStorage (.step id)).map fun w =>
        ((w.blobs emptyVault.id).live "note").isSome)

theorem survives_found {test : World → Event → Bool} {events : List Event} {id : Nat} {dir : Dir}
    {kept : Bool} (h : survives test events id = some (true, some dir, some kept)) :
    ∃ w w' job row, Runs.run (World.step sampleStorage) test .start events = some w ∧
      w.jobs.job id = some job ∧ job.removes = some dir ∧
      w.step sampleStorage (.step id) = some w' ∧ row ∈ w.db.vaults ∧
      row.vault.id = emptyVault.id ∧ ((w.blobs emptyVault.id).live "note").isSome = true ∧
      ((w'.blobs emptyVault.id).live "note").isSome = kept := by
  obtain ⟨w, hrun, hseen⟩ := Option.map_eq_some_iff.mp h
  obtain ⟨hthere, hseen⟩ := Prod.mk.inj hseen
  obtain ⟨hremoves, hafter⟩ := Prod.mk.inj hseen
  obtain ⟨job, hjob, hdir⟩ := Option.bind_eq_some_iff.mp hremoves
  obtain ⟨w', hstep, hkept⟩ := Option.map_eq_some_iff.mp hafter
  rw [Bool.and_eq_true] at hthere
  obtain ⟨row, hrow, hid⟩ := List.any_eq_true.mp hthere.1
  exact ⟨w, w', job, row, hrun, hjob, hdir, hstep, hrow, of_decide_eq_true hid, hthere.2, hkept⟩

theorem apart_spares_note : ∃ w w' row,
    Runs.Reaches (World.step sampleStorage) (fun w event => w.settled event = true) .start w ∧
    w.step sampleStorage (.step 3) = some w' ∧ row ∈ w.db.vaults ∧
    row.vault.id = emptyVault.id ∧ w'.blobs row.vault.id = w.blobs row.vault.id := by
  have hsurvives : survives World.settled apart 3 =
      some (true, some (.live, otherVaultId), some true) := by decide +kernel
  obtain ⟨w, w', job, row, hrun, hjob, hremoves, hstep, hrow, hid, -⟩ := survives_found hsurvives
  have hreach := Runs.Reaches.start.run (fun _ _ hok => hok) hrun
  have hspared := removals_spare_vaults hreach hjob hremoves hstep row hrow
  exact ⟨w, w', row, hreach, hstep, hrow, hid, hspared.2⟩

theorem cameBack_loses_note : ¬∀ (config : StorageConfig) (w w' : World),
    Runs.Reaches (World.step config) Runs.anything .start w →
    ∀ id job dir, w.jobs.job id = some job → job.removes = some dir →
      w.step config (.step id) = some w' →
      ∀ row ∈ w.db.vaults, w'.blobs row.vault.id = w.blobs row.vault.id := by
  intro hclaim
  have hsurvives : survives (fun _ _ => true) cameBack 1 =
      some (true, some (.live, emptyVault.id), some false) := by decide +kernel
  obtain ⟨w, w', job, row, hrun, hjob, hremoves, hstep, hrow, hid, hnote, hlost⟩ :=
    survives_found hsurvives
  have hreach : Runs.Reaches (World.step sampleStorage) Runs.anything .start w :=
    Runs.Reaches.start.run (fun _ _ _ => trivial) hrun
  have hsame := hclaim sampleStorage w w' hreach 1 job _ hjob hremoves hstep row hrow
  rw [hid] at hsame
  rw [hsame, hnote] at hlost
  cases hlost

end ObSink.Server.Storage
