import ObSink.Ios.Items

/-! # Row versions

What a write of the item store does to the versions: rows are deleted outright
by some writes, and every other change the File Provider can see gets a version
above all that are left.
-/

namespace ObSink.Ios

/-! ## Writes -/

inductive Write where
  | insert (record : ItemRecord)
  | updateContent (identifier : String) (size : Option Int) (modified : Int)
  | rename (strings : Strings) (identifier localPath filename parentIdentifier : String)
  | setPending (strings : Strings) (identifier : String) (upload deletion : Bool)
  | clearPending (identifier : String)
  | drainPendingAfterSync (completed : Bool)
  | remove (identifier : String)
  | reconcile (env : Surroundings) (scanned : List ScannedEntry)

def Write.apply (items : Items) : Write → Items
  | .insert record => items.insert record
  | .updateContent identifier size modified => items.updateContent identifier size modified
  | .rename strings identifier localPath filename parentIdentifier =>
      items.rename strings identifier localPath filename parentIdentifier
  | .setPending strings identifier upload deletion =>
      items.setPending strings identifier upload deletion
  | .clearPending identifier => items.clearPending identifier
  | .drainPendingAfterSync completed => items.drainPendingAfterSync completed
  | .remove identifier => items.remove identifier
  | .reconcile env scanned => (items.reconcile env scanned).getD items

/-- The rows a write deletes outright. -/
def Write.drops (items : Items) : Write → ItemRecord → Bool
  | .drainPendingAfterSync completed, r => completed && r.pendingDeletion
  | .remove identifier, r => r.identifier = identifier
  | .reconcile env scanned, r => (items.reconcile env scanned).isSome && items.stale r
  | _, _ => false

/-! ## Versions only grow

Every write, once the rows it deletes are gone, either leaves what the File
Provider sees of a row as it is or gives the row a version above all others. -/

/-- What the File Provider sees of an item. -/
def ItemRecord.shown (r : ItemRecord) : String × String × String × Option Int × Int :=
  (r.identifier, r.parentIdentifier, r.filename, r.size, r.modified)

/-- Two rows with one version are one row. -/
def Items.Distinct (items : Items) : Prop :=
  ∀ r ∈ items.rows, ∀ r' ∈ items.rows, r.rowVersion = r'.rowVersion → r.identifier = r'.identifier

structure Grows (before after : Items) : Prop where
  carried : ∀ r' ∈ after.rows, before.maxRowVersion < r'.rowVersion ∨
    ∃ r ∈ before.rows, r.rowVersion = r'.rowVersion ∧ r.shown = r'.shown ∧
      r.isDeleted = r'.isDeleted
  present : ∀ r ∈ before.rows, ∃ r' ∈ after.rows,
    r'.identifier = r.identifier ∧ r.rowVersion ≤ r'.rowVersion
  distinct : before.Distinct → after.Distinct

theorem ItemRecord.identifier_of_shown {r r' : ItemRecord} (h : r.shown = r'.shown) :
    r.identifier = r'.identifier := congrArg Prod.fst h

namespace Grows

theorem refl (items : Items) : Grows items items where
  carried := fun r' hr' => Or.inr ⟨r', hr', rfl, rfl, rfl⟩
  present := fun r hr => ⟨r, hr, rfl, Int.le_refl _⟩
  distinct := id

theorem max_le {before after : Items} (h : Grows before after) :
    before.maxRowVersion ≤ after.maxRowVersion := by
  cases before.maxRowVersion_cases with
  | inr hmax =>
      obtain ⟨r, hr, hver⟩ := hmax
      obtain ⟨r', hr', -, hle⟩ := h.present r hr
      have := Items.le_maxRowVersion hr'
      omega
  | inl hnil =>
      cases after.maxRowVersion_cases with
      | inl hafter => omega
      | inr hmax =>
          obtain ⟨r', hr', hver⟩ := hmax
          cases h.carried r' hr' with
          | inl hlt => omega
          | inr hcarried =>
              obtain ⟨r, hr, -⟩ := hcarried
              rw [hnil.1] at hr
              cases hr

theorem trans {a b c : Items} (hab : Grows a b) (hbc : Grows b c) : Grows a c where
  carried := by
    intro r'' hr''
    cases hbc.carried r'' hr'' with
    | inl hlt => exact Or.inl (Int.lt_of_le_of_lt hab.max_le hlt)
    | inr hcarried =>
        obtain ⟨r', hr', hver', hshown', hdel'⟩ := hcarried
        cases hab.carried r' hr' with
        | inl hlt => exact Or.inl (hver' ▸ hlt)
        | inr hcarried =>
            obtain ⟨r, hr, hver, hshown, hdel⟩ := hcarried
            exact Or.inr ⟨r, hr, hver.trans hver', hshown.trans hshown', hdel.trans hdel'⟩
  present := by
    intro r hr
    obtain ⟨r', hr', hid, hle⟩ := hab.present r hr
    obtain ⟨r'', hr'', hid', hle'⟩ := hbc.present r' hr'
    exact ⟨r'', hr'', hid'.trans hid, Int.le_trans hle hle'⟩
  distinct := hbc.distinct ∘ hab.distinct

/-- A table in which one row is new or has a version above all others. -/
theorem of_bumped {before after : Items} {rec : ItemRecord}
    (hver : before.maxRowVersion < rec.rowVersion)
    (hafter : ∀ r ∈ after.rows, r = rec ∨ r ∈ before.rows ∧ r.identifier ≠ rec.identifier)
    (hbefore : ∀ r ∈ before.rows, r.identifier = rec.identifier ∧ rec ∈ after.rows ∨
      r ∈ after.rows) : Grows before after where
  carried := by
    intro r' hr'
    cases hafter r' hr' with
    | inl heq => exact Or.inl (heq ▸ hver)
    | inr hold => exact Or.inr ⟨r', hold.1, rfl, rfl, rfl⟩
  present := by
    intro r hr
    cases hbefore r hr with
    | inl hid =>
        have := Items.le_maxRowVersion hr
        exact ⟨rec, hid.2, hid.1.symm, by omega⟩
    | inr hmem => exact ⟨r, hmem, rfl, Int.le_refl _⟩
  distinct := by
    intro hdistinct r hr r' hr' heq
    cases hafter r hr with
    | inl hrec =>
        cases hafter r' hr' with
        | inl hrec' => rw [hrec, hrec']
        | inr hold' =>
            have := Items.le_maxRowVersion hold'.1
            rw [hrec] at heq
            omega
    | inr hold =>
        cases hafter r' hr' with
        | inl hrec' =>
            have := Items.le_maxRowVersion hold.1
            rw [hrec'] at heq
            omega
        | inr hold' => exact hdistinct r hold.1 r' hold'.1 heq

/-- A table in which every row has the version, and shows what, it had before. -/
theorem of_map {before after : Items} (f : ItemRecord → ItemRecord)
    (hrows : after.rows = before.rows.map f)
    (hsame : ∀ r ∈ before.rows, (f r).rowVersion = r.rowVersion ∧ (f r).shown = r.shown ∧
      (f r).isDeleted = r.isDeleted) : Grows before after where
  carried := by
    intro r' hr'
    rw [hrows, List.mem_map] at hr'
    obtain ⟨r, hr, heq⟩ := hr'
    subst heq
    obtain ⟨hver, hshown, hdel⟩ := hsame r hr
    exact Or.inr ⟨r, hr, hver.symm, hshown.symm, hdel.symm⟩
  present := by
    intro r hr
    obtain ⟨hver, hshown, -⟩ := hsame r hr
    exact ⟨f r, hrows ▸ List.mem_map_of_mem hr, ItemRecord.identifier_of_shown hshown,
      Int.le_of_eq hver.symm⟩
  distinct := by
    intro hdistinct r' hr' s' hs' heq
    rw [hrows, List.mem_map] at hr' hs'
    obtain ⟨r, hr, hr'⟩ := hr'
    obtain ⟨s, hs, hs'⟩ := hs'
    subst hr' hs'
    obtain ⟨hver, hshown, -⟩ := hsame r hr
    obtain ⟨hver', hshown', -⟩ := hsame s hs
    rw [ItemRecord.identifier_of_shown hshown, ItemRecord.identifier_of_shown hshown']
    exact hdistinct r hr s hs (hver.symm.trans (heq.trans hver'))

theorem insertOrReplace {items : Items} {rec : ItemRecord}
    (hver : items.maxRowVersion < rec.rowVersion) : Grows items (items.insertOrReplace rec) := by
  apply of_bumped hver
  · intro r hr
    exact (Items.mem_insertOrReplace.mp hr).symm
  · intro r hr
    by_cases hid : r.identifier = rec.identifier
    · exact Or.inl ⟨hid, Items.mem_insertOrReplace.mpr (Or.inr rfl)⟩
    · exact Or.inr (Items.mem_insertOrReplace.mpr (Or.inl ⟨hr, hid⟩))

theorem update {items : Items} {rec : ItemRecord}
    (hver : items.maxRowVersion < rec.rowVersion) : Grows items (items.update rec) := by
  apply of_bumped hver
  · intro r hr
    cases Items.mem_update.mp hr with
    | inl hold => exact Or.inr hold
    | inr hrec => exact Or.inl hrec.1
  · intro r hr
    by_cases hid : r.identifier = rec.identifier
    · exact Or.inl ⟨hid, Items.mem_update.mpr (Or.inr ⟨rfl, r, hr, hid⟩)⟩
    · exact Or.inr (Items.mem_update.mpr (Or.inl ⟨hr, hid⟩))

/-- An update that the File Provider does not see. -/
theorem update_unseen {items : Items} {old rec : ItemRecord} (hold : old ∈ items.rows)
    (hver : rec.rowVersion = old.rowVersion) (hshown : rec.shown = old.shown)
    (hdel : rec.isDeleted = old.isDeleted) : Grows items (items.update rec) := by
  apply of_map _ rfl
  intro r hr
  by_cases hid : r.identifier = rec.identifier
  · have heq : r = old :=
      items.eq_of_identifier hr hold (hid.trans (ItemRecord.identifier_of_shown hshown))
    subst heq
    simp only [hid, if_true]
    exact ⟨hver, hshown, hdel⟩
  · simp only [hid, if_false]
    exact ⟨trivial, trivial, trivial⟩

end Grows

/-! ### The writes -/

theorem Items.maxRowVersion_insertOrReplace_le {items : Items} {rec : ItemRecord}
    (hver : items.maxRowVersion < rec.rowVersion) :
    (items.insertOrReplace rec).maxRowVersion ≤ rec.rowVersion := by
  cases (items.insertOrReplace rec).maxRowVersion_cases with
  | inl hnil =>
      have hmem : rec ∈ (items.insertOrReplace rec).rows :=
        Items.mem_insertOrReplace.mpr (Or.inr rfl)
      rw [hnil.1] at hmem
      cases hmem
  | inr hmax =>
      obtain ⟨r, hr, heq⟩ := hmax
      cases Items.mem_insertOrReplace.mp hr with
      | inl hold =>
          have := Items.le_maxRowVersion hold.1
          omega
      | inr hrec =>
          rw [hrec] at heq
          exact Int.le_of_eq heq.symm

theorem Items.maxRowVersion_update_le {items : Items} {rec : ItemRecord}
    (hver : items.maxRowVersion < rec.rowVersion) :
    (items.update rec).maxRowVersion ≤ rec.rowVersion := by
  cases (items.update rec).maxRowVersion_cases with
  | inl hnil =>
      have hrows : items.rows = [] := List.map_eq_nil_iff.mp hnil.1
      have hmax : items.maxRowVersion = 0 := by simp [Items.maxRowVersion, hrows]
      omega
  | inr hmax =>
      obtain ⟨r, hr, heq⟩ := hmax
      cases Items.mem_update.mp hr with
      | inl hold =>
          have := Items.le_maxRowVersion hold.1
          omega
      | inr hrec =>
          rw [hrec.1] at heq
          exact Int.le_of_eq heq.symm

theorem Items.grows_insert (items : Items) (record : ItemRecord) :
    Grows items (items.insert record) :=
  Grows.insertOrReplace (Int.lt_succ _)

theorem Items.grows_updateContent (items : Items) (identifier : String) (size : Option Int)
    (modified : Int) : Grows items (items.updateContent identifier size modified) := by
  unfold Items.updateContent
  split
  next => exact Grows.refl items
  next => exact Grows.update (Int.lt_succ _)

/-- Rows of a table are rewritten one by one, none of them visibly. -/
theorem Items.grows_rewrite (f : ItemRecord → ItemRecord)
    (hsame : ∀ r, (f r).rowVersion = r.rowVersion ∧ (f r).shown = r.shown ∧
      (f r).isDeleted = r.isDeleted) (l : List ItemRecord) (items : Items)
    (hmem : ∀ r ∈ l, r ∈ items.rows) (hkey : (l.map (·.identifier)).Nodup) :
    Grows items (l.foldl (fun items child => items.update (f child)) items) := by
  induction l generalizing items with
  | nil => exact Grows.refl items
  | cons child rest ih =>
      obtain ⟨hver, hshown, hdel⟩ := hsame child
      have hid := ItemRecord.identifier_of_shown hshown
      rw [List.map_cons, List.nodup_cons] at hkey
      apply (Grows.update_unseen (hmem child List.mem_cons_self) hver hshown hdel).trans
      apply ih _ _ hkey.2
      intro r hr
      apply Items.mem_update.mpr
      refine Or.inl ⟨hmem r (List.mem_cons_of_mem _ hr), ?_⟩
      intro heq
      apply hkey.1
      rw [← hid, ← heq]
      exact List.mem_map_of_mem hr

theorem Items.mem_descendants {strings : Strings} {items : Items} {directoryPath : String}
    {r : ItemRecord} (h : r ∈ items.descendants strings directoryPath) : r ∈ items.rows :=
  (List.mem_filter.mp ((List.mergeSort_perm _ _).mem_iff.mp h)).1

theorem Items.descendants_key (strings : Strings) (items : Items) (directoryPath : String) :
    ((items.descendants strings directoryPath).map (·.identifier)).Nodup :=
  (((List.mergeSort_perm _ _).map _).nodup_iff).mpr
    (items.key.sublist (List.filter_sublist.map _))

theorem Items.grows_rename (strings : Strings) (items : Items)
    (identifier localPath filename parentIdentifier : String) :
    Grows items (items.rename strings identifier localPath filename parentIdentifier) := by
  unfold Items.rename
  split
  next => exact Grows.refl items
  next rec _ =>
    dsimp only
    split
    next =>
      refine (Grows.update ?_).trans
        (Items.grows_rewrite (fun child => { child with localPath := _ }) ?_ _ _ ?_ ?_)
      · exact Int.lt_succ _
      · intro r
        exact ⟨rfl, rfl, rfl⟩
      · intro r hr
        exact Items.mem_descendants hr
      · exact Items.descendants_key _ _ _
    next => exact Grows.update (Int.lt_succ _)

theorem Items.grows_tombstone (l : List ItemRecord) (items : Items) (next : Int)
    (hnext : items.maxRowVersion < next) : Grows items (items.tombstone next l) := by
  induction l generalizing items next with
  | nil => exact Grows.refl items
  | cons child rest ih =>
      unfold Items.tombstone
      split
      next => exact ih items next hnext
      next =>
        have hver : items.maxRowVersion < ({ child with
          pendingDeletion := true, isDeleted := true, rowVersion := next } :
            ItemRecord).rowVersion :=
          hnext
        apply (Grows.update hver).trans
        apply ih
        have := Items.maxRowVersion_update_le hver
        dsimp only at this
        omega

theorem Items.grows_setPending (strings : Strings) (items : Items) (identifier : String)
    (upload deletion : Bool) :
    Grows items (items.setPending strings identifier upload deletion) := by
  unfold Items.setPending
  split
  next => exact Grows.refl items
  next rec _ =>
    dsimp only
    split
    next =>
      refine (Grows.update ?_).trans (Items.grows_tombstone _ _ _ ?_)
      · exact Int.lt_succ _
      exact Int.lt_add_one_of_le (Items.maxRowVersion_update_le (Int.lt_succ items.maxRowVersion))
    next => exact Grows.update (Int.lt_succ _)

theorem Items.grows_clearPending (items : Items) (identifier : String) :
    Grows items (items.clearPending identifier) := by
  unfold Items.clearPending
  split
  next => exact Grows.refl items
  next rec hrec => exact Grows.update_unseen (mem_of_fetch hrec).1 rfl rfl rfl

theorem Items.grows_drain (items : Items) :
    Grows (items.delete (·.pendingDeletion)) (items.uploadsDone.delete (·.pendingDeletion)) := by
  apply Grows.of_map (fun r => { r with pendingUpload := false })
  · simp only [Items.delete, Items.uploadsDone, List.filter_map]
    rfl
  · intro r _
    exact ⟨rfl, rfl, rfl⟩

theorem Pass.grows_upsertEntry {mint : Nat → String} {existing : String → Option ItemRecord}
    {pass pass' : Pass} {entry : ScannedEntry}
    (h : pass.upsertEntry mint existing entry = some pass')
    (hnext : pass.items.maxRowVersion < pass.nextVersion) :
    Grows pass.items pass'.items ∧ pass'.items.maxRowVersion < pass'.nextVersion := by
  unfold Pass.upsertEntry at h
  dsimp only at h
  split at h
  next rec _ =>
    split at h
    next =>
      cases h
      have hver : pass.items.maxRowVersion < (entry.onto rec
          (((parentPath entry.path).bind (pass.pathToUUID.lookup ·)).getD "")
          pass.nextVersion).rowVersion := hnext
      refine ⟨Grows.insertOrReplace hver, ?_⟩
      have := Items.maxRowVersion_insertOrReplace_le hver
      exact Int.lt_add_one_of_le this
    next =>
      cases h
      exact ⟨Grows.refl _, hnext⟩
  next =>
    obtain ⟨items, hitems, hpass⟩ := Option.map_eq_some_iff.mp h
    subst hpass
    have hput := Items.insertNew_eq_some hitems
    subst hput
    exact ⟨Grows.insertOrReplace hnext,
      Int.lt_add_one_of_le (Items.maxRowVersion_insertOrReplace_le hnext)⟩

theorem Pass.grows_foldlM {mint : Nat → String} {existing : String → Option ItemRecord}
    {entries : List ScannedEntry} {pass pass' : Pass}
    (h : entries.foldlM (Pass.upsertEntry mint existing) pass = some pass')
    (hnext : pass.items.maxRowVersion < pass.nextVersion) :
    Grows pass.items pass'.items ∧ pass'.items.maxRowVersion < pass'.nextVersion := by
  induction entries generalizing pass with
  | nil =>
      cases h
      exact ⟨Grows.refl _, hnext⟩
  | cons entry rest ih =>
      rw [List.foldlM_cons] at h
      obtain ⟨middle, hmiddle, hrest⟩ := Option.bind_eq_some_iff.mp h
      obtain ⟨hgrows, hnext⟩ := Pass.grows_upsertEntry hmiddle hnext
      obtain ⟨hgrows', hnext⟩ := ih hrest hnext
      exact ⟨hgrows.trans hgrows', hnext⟩

theorem Items.grows_vanish (l : List ItemRecord) (items : Items) (next : Int)
    (hnext : items.maxRowVersion < next) : Grows items (items.vanish next l) := by
  induction l generalizing items next with
  | nil => exact Grows.refl items
  | cons rec rest ih =>
      have hver : items.maxRowVersion <
          ({ rec with isDeleted := true, rowVersion := next } : ItemRecord).rowVersion := hnext
      apply (Grows.insertOrReplace hver).trans
      apply ih
      exact Int.lt_add_one_of_le (Items.maxRowVersion_insertOrReplace_le hver)

theorem Items.grows_reconcile {items items' : Items} {env : Surroundings}
    {scanned : List ScannedEntry} (h : items.reconcile env scanned = some items') :
    Grows items.swept items' := by
  unfold Items.reconcile at h
  obtain ⟨pass, hpass, heq⟩ := Option.map_eq_some_iff.mp h
  subst heq
  obtain ⟨hgrows, hnext⟩ := Pass.grows_foldlM hpass (Int.lt_succ _)
  exact hgrows.trans (Items.grows_vanish _ _ _ hnext)

/-- Every write deletes rows outright or lets versions grow, in this order. -/
theorem Write.grows (items : Items) (write : Write) :
    Grows (items.delete (write.drops items)) (write.apply items) := by
  have hkeep : items.delete (fun _ => false) = items := Items.delete_eq_self (fun _ _ => rfl)
  cases write with
  | insert record =>
      change Grows (items.delete (fun _ => false)) _
      rw [hkeep]
      exact items.grows_insert record
  | updateContent identifier size modified =>
      change Grows (items.delete (fun _ => false)) _
      rw [hkeep]
      exact items.grows_updateContent identifier size modified
  | rename strings identifier localPath filename parentIdentifier =>
      change Grows (items.delete (fun _ => false)) _
      rw [hkeep]
      exact items.grows_rename strings identifier localPath filename parentIdentifier
  | setPending strings identifier upload deletion =>
      change Grows (items.delete (fun _ => false)) _
      rw [hkeep]
      exact items.grows_setPending strings identifier upload deletion
  | clearPending identifier =>
      change Grows (items.delete (fun _ => false)) _
      rw [hkeep]
      exact items.grows_clearPending identifier
  | drainPendingAfterSync completed =>
      cases completed with
      | false =>
          change Grows (items.delete (fun _ => false)) _
          rw [hkeep]
          exact Grows.refl items
      | true => exact items.grows_drain
  | remove identifier => exact Grows.refl _
  | reconcile env scanned =>
      cases h : items.reconcile env scanned with
      | none =>
          have hdrops : Write.drops items (.reconcile env scanned) = fun _ => false := by
            funext r
            simp [Write.drops, h]
          rw [hdrops, hkeep]
          simp only [Write.apply, h]
          exact Grows.refl items
      | some items' =>
          have hdrops : Write.drops items (.reconcile env scanned) = items.stale := by
            funext r
            simp [Write.drops, h]
          rw [hdrops]
          simp only [Write.apply, h]
          exact Items.grows_reconcile h

end ObSink.Ios
