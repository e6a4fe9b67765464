import Mathlib.Logic.Function.Iterate
import ObSink.Ios.Versions

/-! # Change anchors

The system follows a domain's changes from an anchor that the enumerator
handed out, page by page, while the app and the extension go on writing
(`ios/FileProvider/FileProviderEnumerator.swift`). A run here is any
interleaving of writes, `currentSyncAnchor` and `enumerateChanges`. Beside the
table it keeps what every holder of an anchor has been told: nothing in the
code reads that.
-/

namespace ObSink.Ios

/-! ## The enumerator -/

inductive Container where
  | trashContainer
  | workingSet
  | folder (identifier : String)
  deriving DecidableEq, Repr

def pageSize : Nat := 500

/-- What one call of `enumerateChanges` gives its observer. -/
structure Page where
  updates : List ItemRecord
  deletes : List String
  anchor : Int
  moreComing : Bool
  deriving DecidableEq

def enumerateChanges (items : Items) (container : Container) (fromVersion : Int) : Page :=
  if container = .trashContainer then ⟨[], [], fromVersion, false⟩
  else
    let changed := items.changes fromVersion pageSize
    { updates := changed.filter (·.isDeleted = false)
      deletes := (changed.filter (·.isDeleted)).map (·.identifier)
      anchor := max fromVersion ((changed.getLast?.map (·.rowVersion)).getD fromVersion)
      moreComing := changed.length = pageSize }

/-! ## Following an anchor -/

/-- The identifiers of rows that a write created or visibly changed. -/
def Items.touched (before after : Items) : List String :=
  (after.rows.filter fun r' =>
    ¬∃ r ∈ before.rows, r.shown = r'.shown ∧ r.isDeleted = r'.isDeleted).map (·.identifier)

def Items.Live (items : Items) (identifier : String) : Prop :=
  ∃ r ∈ items.rows, r.identifier = identifier ∧ r.isDeleted = false

/-- One who follows the changes from an anchor: the table when the anchor was
handed out, the items created or changed since, how far the pages have come
and what they reported. `upToDate` holds from a page without `moreComing` to
the next write. -/
structure Reader where
  since : Items
  touched : List String
  anchor : Int
  updates : List ItemRecord
  deletes : List String
  upToDate : Bool

namespace Reader

def start (items : Items) (anchor : Int) : Reader := ⟨items, [], anchor, [], [], false⟩

/-- A write happens meanwhile. -/
def note (before after : Items) (reader : Reader) : Reader :=
  { reader with
    touched := Items.touched before after ++ reader.touched
    upToDate := false }

/-- The reader takes in a page. -/
def take (reader : Reader) (page : Page) : Reader :=
  { reader with
    anchor := page.anchor
    updates := reader.updates ++ page.updates
    deletes := reader.deletes ++ page.deletes
    upToDate := !page.moreComing }

/-- The reader was told of a row as it is now. -/
def Told (reader : Reader) (r : ItemRecord) : Prop :=
  if r.isDeleted then r.identifier ∈ reader.deletes
  else ∃ u ∈ reader.updates, u.shown = r.shown

/-- Every item created or changed since the anchor was handed out is reported,
and every item live then and not any more is reported as deleted. -/
def Complete (items : Items) (reader : Reader) : Prop :=
  (∀ r ∈ items.rows, r.identifier ∈ reader.touched → reader.Told r) ∧
  ∀ identifier, reader.since.Live identifier → ¬items.Live identifier →
    identifier ∈ reader.deletes

end Reader

structure State where
  items : Items
  readers : List Reader

inductive Event where
  | write (write : Write)
  /-- `failed` when the table cannot be read: the anchor is then 0. -/
  | currentSyncAnchor (failed : Bool)
  /-- The next page for a reader. The anchor at its end is also the start of
  another reader, and the earlier anchors stay in use. -/
  | enumerateChanges (container : Container) (reader : Reader)

namespace State

def init : State := ⟨Items.empty, []⟩

/-- Pages are asked for from anchors that were handed out. -/
def Possible (s : State) : Event → Prop
  | .enumerateChanges _ reader => reader ∈ s.readers
  | _ => True

def step (s : State) : Event → State
  | .write write =>
      ⟨write.apply s.items, s.readers.map (Reader.note s.items (write.apply s.items))⟩
  | .currentSyncAnchor failed =>
      ⟨s.items, .start s.items (if failed then 0 else s.items.maxRowVersion) :: s.readers⟩
  | .enumerateChanges container reader =>
      let page := Ios.enumerateChanges s.items container reader.anchor
      let next := Reader.start s.items page.anchor
      if container = .trashContainer then ⟨s.items, next :: s.readers⟩
      else ⟨s.items, next :: reader.take page :: s.readers⟩

/-- A write that deletes rows outright deletes none whose item was live when
some anchor was handed out, and leaves a version that no anchor exceeds. -/
def Spares (s : State) : Event → Prop
  | .write write => ∀ r ∈ s.items.rows, write.drops s.items r →
      ∀ reader ∈ s.readers, ¬reader.since.Live r.identifier ∧
        reader.anchor ≤ (s.items.delete (write.drops s.items)).maxRowVersion
  | _ => True

/-- The states of runs from the empty table whose steps all meet `ok`. -/
inductive Runs (ok : State → Event → Prop) : State → Prop where
  | init : Runs ok init
  | step {s : State} {event : Event} : Runs ok s → s.Possible event → ok s event →
      Runs ok (s.step event)

end State

/-! ### One page -/

theorem Items.mem_changes {items : Items} {anchor : Int} {limit : Nat} {r : ItemRecord}
    (h : r ∈ items.changes anchor limit) : r ∈ items.rows ∧ anchor < r.rowVersion := by
  have hsorted := (List.mergeSort_perm _ _).mem_iff.mp (List.mem_of_mem_take h)
  simpa using hsorted

/-- The changes after an anchor, before a page of them is cut off. -/
theorem Items.changes_split {items : Items} {anchor : Int} {limit : Nat} {r : ItemRecord}
    (hr : r ∈ items.rows) (hver : anchor < r.rowVersion) (hout : r ∉ items.changes anchor limit) :
    (items.changes anchor limit).length = limit ∧
      ∀ last ∈ items.changes anchor limit, last.rowVersion ≤ r.rowVersion := by
  let le := fun a b : ItemRecord => decide (a.rowVersion ≤ b.rowVersion)
  let sorted := (items.rows.filter (fun r => anchor < r.rowVersion)).mergeSort le
  have hsorted : sorted.Pairwise (fun a b => le a b) := by
    apply List.pairwise_mergeSort
    · intro a b c hab hbc
      simp only [le, decide_eq_true_eq] at *
      omega
    · intro a b
      simp only [le, Bool.or_eq_true, decide_eq_true_eq]
      omega
  have hmem : r ∈ sorted.take limit ++ sorted.drop limit := by
    rw [List.take_append_drop, (List.mergeSort_perm _ _).mem_iff, List.mem_filter]
    exact ⟨hr, by simpa using hver⟩
  have hdrop : r ∈ sorted.drop limit := (List.mem_append.mp hmem).resolve_left hout
  constructor
  · have hlength := List.length_pos_of_mem hdrop
    rw [List.length_drop] at hlength
    exact (List.length_take (i := limit) (l := sorted)).trans (Nat.min_eq_left (by omega))
  · intro last hlast
    rw [← List.take_append_drop limit sorted, List.pairwise_append] at hsorted
    simpa [le] using hsorted.2.2 last hlast r hdrop

/-- A row the page leaves out comes later: the page is full, and ends below it. -/
theorem enumerateChanges_left_out {items : Items} (hdistinct : items.Distinct)
    {container : Container} (hcontainer : container ≠ .trashContainer) {anchor : Int}
    {r : ItemRecord} (hr : r ∈ items.rows) (hver : anchor < r.rowVersion)
    (hout : r ∉ items.changes anchor pageSize) :
    (enumerateChanges items container anchor).moreComing = true ∧
      (enumerateChanges items container anchor).anchor < r.rowVersion := by
  obtain ⟨hfull, hbelow⟩ := Items.changes_split hr hver hout
  unfold enumerateChanges
  rw [if_neg hcontainer]
  dsimp only
  refine ⟨decide_eq_true hfull, ?_⟩
  cases hlast : (items.changes anchor pageSize).getLast? with
  | none => simpa using hver
  | some last =>
      have hlast := List.mem_of_getLast? hlast
      have hne : last.rowVersion ≠ r.rowVersion := by
        intro heq
        have hmem := (Items.mem_changes hlast).1
        have hsame := items.eq_of_identifier hmem hr (hdistinct last hmem r hr heq)
        exact hout (hsame ▸ hlast)
      have := hbelow last hlast
      simp only [Option.map_some, Option.getD_some]
      omega

/-- The anchor at the end of a page. -/
theorem enumerateChanges_anchor {items : Items} {container : Container} {anchor : Int}
    (hanchor : anchor ≤ items.maxRowVersion) :
    anchor ≤ (enumerateChanges items container anchor).anchor ∧
      (enumerateChanges items container anchor).anchor ≤ items.maxRowVersion := by
  unfold enumerateChanges
  split
  next => exact ⟨Int.le_refl _, hanchor⟩
  next =>
    dsimp only
    refine ⟨Int.le_max_left _ _, ?_⟩
    cases hlast : (items.changes anchor pageSize).getLast? with
    | none => simpa using hanchor
    | some last =>
        have := Items.le_maxRowVersion (Items.mem_changes (List.mem_of_getLast? hlast)).1
        simp only [Option.map_some, Option.getD_some]
        omega

/-- A reader that takes a page was told of every row in it. -/
theorem Reader.told_take {items : Items} {container : Container}
    (hcontainer : container ≠ .trashContainer) {reader : Reader} {r : ItemRecord}
    (hr : r ∈ items.changes reader.anchor pageSize) :
    (reader.take (enumerateChanges items container reader.anchor)).Told r := by
  unfold Reader.Told Reader.take enumerateChanges
  rw [if_neg hcontainer]
  dsimp only
  cases hdel : r.isDeleted with
  | true =>
      rw [if_pos rfl]
      apply List.mem_append_right
      exact List.mem_map_of_mem (List.mem_filter.mpr ⟨hr, hdel⟩)
  | false =>
      rw [if_neg (by decide)]
      exact ⟨r, List.mem_append_right _ (List.mem_filter.mpr ⟨hr, by simpa using hdel⟩), rfl⟩

theorem Reader.Told.take {reader : Reader} {r : ItemRecord} (h : reader.Told r) (page : Page) :
    (reader.take page).Told r := by
  unfold Reader.Told at *
  cases hdel : r.isDeleted with
  | true =>
      rw [hdel, if_pos rfl] at h
      rw [if_pos rfl]
      exact List.mem_append_left _ h
  | false =>
      rw [hdel, if_neg (by decide)] at h
      rw [if_neg (by decide)]
      obtain ⟨u, hu, hshown⟩ := h
      exact ⟨u, List.mem_append_left _ hu, hshown⟩

theorem State.Runs.foldl {ok : State → Event → Prop} {events : List Event} {s : State}
    (h : Runs ok s) (hok : ∀ s, ∀ event ∈ events, s.Possible event ∧ ok s event) :
    Runs ok (events.foldl State.step s) := by
  induction events generalizing s with
  | nil => exact h
  | cons event rest ih =>
      obtain ⟨hpossible, hevent⟩ := hok s event List.mem_cons_self
      apply ih (h.step hpossible hevent)
      intro s event hmem
      exact hok s event (List.mem_cons_of_mem _ hmem)

/-! ### What holds of every reader -/

/-- What a reader has not been told of has a version after its anchor. -/
structure Reader.Follows (items : Items) (reader : Reader) : Prop where
  anchor_le : reader.anchor ≤ items.maxRowVersion
  touched : ∀ r ∈ items.rows, r.identifier ∈ reader.touched →
    reader.anchor < r.rowVersion ∨ reader.Told r
  live : ∀ identifier, reader.since.Live identifier → ∃ r ∈ items.rows,
    r.identifier = identifier ∧
      (r.isDeleted = false ∨ reader.anchor < r.rowVersion ∨ identifier ∈ reader.deletes)
  upToDate : reader.upToDate = true → ∀ r ∈ items.rows, reader.anchor < r.rowVersion → reader.Told r

namespace Reader.Follows

theorem start {items : Items} {anchor : Int} (h : anchor ≤ items.maxRowVersion) :
    (Reader.start items anchor).Follows items where
  anchor_le := h
  touched := fun _ _ htouched => by cases htouched
  live := by
    intro identifier hlive
    obtain ⟨r, hr, hid, hdel⟩ := hlive
    exact ⟨r, hr, hid, Or.inl hdel⟩
  upToDate := fun h => by cases h

theorem take {items : Items} {reader : Reader} (h : reader.Follows items)
    (hdistinct : items.Distinct) {container : Container}
    (hcontainer : container ≠ .trashContainer) :
    (reader.take (enumerateChanges items container reader.anchor)).Follows items := by
  have hanchor := @enumerateChanges_anchor items container _ h.anchor_le
  -- A row after the old anchor is in the page, or after the new one.
  have hpage : ∀ r ∈ items.rows, reader.anchor < r.rowVersion →
      (enumerateChanges items container reader.anchor).anchor < r.rowVersion ∨
        (reader.take (enumerateChanges items container reader.anchor)).Told r := by
    intro r hr hver
    by_cases hin : r ∈ items.changes reader.anchor pageSize
    · exact Or.inr (Reader.told_take hcontainer hin)
    · exact Or.inl (enumerateChanges_left_out hdistinct hcontainer hr hver hin).2
  constructor
  · exact hanchor.2
  · intro r hr htouched
    cases h.touched r hr htouched with
    | inl hver => exact hpage r hr hver
    | inr htold => exact Or.inr (htold.take _)
  · intro identifier hlive
    obtain ⟨r, hr, hid, hcases⟩ := h.live identifier hlive
    refine ⟨r, hr, hid, ?_⟩
    cases hdel : r.isDeleted with
    | false => exact Or.inl rfl
    | true =>
        rw [hdel] at hcases
        cases hcases.resolve_left (by decide) with
        | inl hver =>
            cases hpage r hr hver with
            | inl hafter => exact Or.inr (Or.inl hafter)
            | inr htold =>
                rw [Reader.Told, hdel, if_pos rfl, hid] at htold
                exact Or.inr (Or.inr htold)
        | inr hdeleted => exact Or.inr (Or.inr (List.mem_append_left _ hdeleted))
  · intro hdone r hr hver
    have hmore : (enumerateChanges items container reader.anchor).moreComing = false := by
      simpa [Reader.take] using hdone
    have hbefore : reader.anchor < r.rowVersion := Int.lt_of_le_of_lt hanchor.1 hver
    by_cases hin : r ∈ items.changes reader.anchor pageSize
    · exact Reader.told_take hcontainer hin
    · have hfull := (enumerateChanges_left_out hdistinct hcontainer hr hbefore hin).1
      rw [hmore] at hfull
      cases hfull

/-- What a reader holds on to across a write: the write deletes none of its
items and no version it counts on. -/
theorem note {before after kept : Items} {reader : Reader} (h : reader.Follows before)
    (hkept : ∀ r ∈ kept.rows, r ∈ before.rows) (hgrows : Grows kept after)
    (hanchor : reader.anchor ≤ kept.maxRowVersion)
    (hspared : ∀ r ∈ before.rows, reader.since.Live r.identifier → r ∈ kept.rows) :
    (reader.note before after).Follows after := by
  constructor
  · exact Int.le_trans hanchor hgrows.max_le
  · intro r' hr' htouched
    cases hgrows.carried r' hr' with
    | inl hver => exact Or.inl (Int.lt_of_le_of_lt hanchor hver)
    | inr hcarried =>
        obtain ⟨r, hr, hver, hshown, hdel⟩ := hcarried
        have hbefore := hkept r hr
        cases List.mem_append.mp htouched with
        | inl hnew =>
            obtain ⟨r'', hr'', hid⟩ := List.mem_map.mp hnew
            obtain ⟨hafter, hfresh⟩ := List.mem_filter.mp hr''
            have heq := after.eq_of_identifier hafter hr' hid
            subst heq
            simp only [decide_eq_true_eq] at hfresh
            exact absurd ⟨r, hbefore, hshown, hdel⟩ hfresh
        | inr hold =>
            rw [← ItemRecord.identifier_of_shown hshown] at hold
            cases h.touched r hbefore hold with
            | inl hlt => exact Or.inl (hver ▸ hlt)
            | inr htold =>
                right
                unfold Reader.Told at htold ⊢
                rw [← hdel, ← ItemRecord.identifier_of_shown hshown, ← hshown]
                exact htold
  · intro identifier hlive
    obtain ⟨r, hr, hid, hcases⟩ := h.live identifier hlive
    subst hid
    have hstays := hspared r hr hlive
    obtain ⟨r', hr', hid', -⟩ := hgrows.present r hstays
    refine ⟨r', hr', hid', ?_⟩
    cases hgrows.carried r' hr' with
    | inl hver => exact Or.inr (Or.inl (Int.lt_of_le_of_lt hanchor hver))
    | inr hcarried =>
        obtain ⟨r₀, hr₀, hver, hshown, hdel⟩ := hcarried
        have heq := before.eq_of_identifier (hkept r₀ hr₀) hr
          ((ItemRecord.identifier_of_shown hshown).trans hid')
        subst heq
        rw [← hdel, ← hver]
        exact hcases
  · intro hdone
    cases hdone

end Reader.Follows

/-! ### Runs -/

/-- Versions are positive and distinct, and every reader follows. -/
structure State.Inv (s : State) : Prop where
  positive : ∀ r ∈ s.items.rows, 0 < r.rowVersion
  distinct : s.items.Distinct
  follows : ∀ reader ∈ s.readers, reader.Follows s.items

theorem Items.maxRowVersion_nonneg {items : Items} (h : ∀ r ∈ items.rows, 0 < r.rowVersion) :
    0 ≤ items.maxRowVersion := by
  cases items.maxRowVersion_cases with
  | inl hnil => omega
  | inr hmax =>
      obtain ⟨r, hr, heq⟩ := hmax
      have := h r hr
      omega

theorem State.Inv.write {s : State} (h : s.Inv) {write : Write}
    (hspares : s.Spares (.write write)) : (s.step (.write write)).Inv := by
  have hgrows := write.grows s.items
  have hkept : ∀ r ∈ (s.items.delete (write.drops s.items)).rows, r ∈ s.items.rows :=
    fun r hr => (Items.mem_delete.mp hr).1
  constructor
  · intro r' hr'
    cases hgrows.carried r' hr' with
    | inl hver =>
        have := Items.maxRowVersion_nonneg (fun r hr => h.positive r (hkept r hr))
        omega
    | inr hcarried =>
        obtain ⟨r, hr, hver, -⟩ := hcarried
        exact hver ▸ h.positive r (hkept r hr)
  · apply hgrows.distinct
    intro r hr r' hr'
    exact h.distinct r (hkept r hr) r' (hkept r' hr')
  · intro reader hreader
    obtain ⟨old, hold, heq⟩ := List.mem_map.mp hreader
    subst heq
    apply (h.follows old hold).note hkept hgrows
    · by_cases hdrop : ∃ r ∈ s.items.rows, write.drops s.items r = true
      · obtain ⟨r, hr, hdrop⟩ := hdrop
        exact (hspares r hr hdrop old hold).2
      · rw [Items.delete_eq_self (fun r hr => by
          simpa using fun hdrops => hdrop ⟨r, hr, hdrops⟩)]
        exact (h.follows old hold).anchor_le
    · intro r hr hlive
      rw [Items.mem_delete]
      refine ⟨hr, ?_⟩
      cases hdrop : write.drops s.items r with
      | false => rfl
      | true => exact absurd hlive (hspares r hr hdrop old hold).1

theorem State.Inv.step {s : State} (h : s.Inv) {event : Event} (hpossible : s.Possible event)
    (hspares : s.Spares event) : (s.step event).Inv := by
  cases event with
  | write write => exact h.write hspares
  | currentSyncAnchor failed =>
      refine ⟨h.positive, h.distinct, ?_⟩
      intro reader hreader
      cases List.mem_cons.mp hreader with
      | inr hold => exact h.follows reader hold
      | inl hnew =>
          subst hnew
          apply Reader.Follows.start
          cases failed with
          | true => exact Items.maxRowVersion_nonneg h.positive
          | false => exact Int.le_refl _
  | enumerateChanges container reader =>
      have hreader := h.follows reader hpossible
      have hnext := Reader.Follows.start
        (@enumerateChanges_anchor s.items container _ hreader.anchor_le).2
      unfold State.step
      dsimp only
      split
      next =>
        refine ⟨h.positive, h.distinct, ?_⟩
        intro other hother
        cases List.mem_cons.mp hother with
        | inl hnew => exact hnew ▸ hnext
        | inr hold => exact h.follows other hold
      next hcontainer =>
        refine ⟨h.positive, h.distinct, ?_⟩
        intro other hother
        simp only [List.mem_cons] at hother
        obtain hnew | htaken | hold := hother
        · exact hnew ▸ hnext
        · exact htaken ▸ hreader.take h.distinct hcontainer
        · exact h.follows other hold

theorem State.Runs.inv {s : State} (h : Runs State.Spares s) : s.Inv := by
  induction h with
  | init =>
      refine ⟨?_, ?_, ?_⟩ <;> intro r hr <;> cases hr
  | step _ hpossible hspares ih => exact ih.step hpossible hspares

theorem Reader.Follows.complete {items : Items} {reader : Reader} (h : reader.Follows items)
    (hdone : reader.upToDate = true) : reader.Complete items := by
  constructor
  · intro r hr htouched
    cases h.touched r hr htouched with
    | inl hver => exact h.upToDate hdone r hr hver
    | inr htold => exact htold
  · intro identifier hlive hgone
    obtain ⟨r, hr, hid, hcases⟩ := h.live identifier hlive
    cases hdel : r.isDeleted with
    | false => exact absurd ⟨r, hr, hid, hdel⟩ hgone
    | true =>
        rw [hdel] at hcases
        cases hcases.resolve_left (by decide) with
        | inr hdeleted => exact hdeleted
        | inl hver =>
            have htold := h.upToDate hdone r hr hver
            rw [Reader.Told, hdel, if_pos rfl, hid] at htold
            exact htold

/-! ### The pages come to an end -/

/-- The changes a reader still has before it. -/
def Reader.ahead (items : Items) (reader : Reader) : List ItemRecord :=
  items.rows.filter (fun r => reader.anchor < r.rowVersion)

def Reader.next (items : Items) (container : Container) (reader : Reader) : Reader :=
  reader.take (enumerateChanges items container reader.anchor)

theorem Reader.ahead_next_lt {items : Items} {container : Container} {reader : Reader}
    (hcontainer : container ≠ .trashContainer)
    (hmore : (reader.next items container).upToDate = false) :
    ((reader.next items container).ahead items).length < (reader.ahead items).length := by
  have hfull : (items.changes reader.anchor pageSize).length = pageSize := by
    simpa [Reader.next, Reader.take, enumerateChanges, hcontainer] using hmore
  cases hlast : (items.changes reader.anchor pageSize).getLast? with
  | none =>
      rw [List.getLast?_eq_none_iff] at hlast
      rw [hlast] at hfull
      cases hfull
  | some last =>
      have hmem := Items.mem_changes (List.mem_of_getLast? hlast)
      have hanchor : (reader.next items container).anchor = last.rowVersion := by
        simp only [Reader.next, Reader.take, enumerateChanges, if_neg hcontainer, hlast,
          Option.map_some, Option.getD_some]
        omega
      -- The last row of the page is behind the reader now, and nothing else came.
      have hahead : (reader.next items container).ahead items =
          (reader.ahead items).filter (fun r => last.rowVersion < r.rowVersion) := by
        rw [Reader.ahead, Reader.ahead, List.filter_filter, hanchor]
        apply List.filter_congr
        intro r _
        have := hmem.2
        by_cases hlt : last.rowVersion < r.rowVersion
        · simp only [hlt, decide_true, Bool.true_and, Bool.true_eq, decide_eq_true_eq]
          omega
        · simp [hlt]
      rw [hahead, List.length_filter_lt_length_iff_exists]
      exact ⟨last, List.mem_filter.mpr ⟨hmem.1, by simpa using hmem.2⟩, by simp⟩

/-- A reader that reads on while nobody writes is up to date after some pages. -/
theorem Reader.next_upToDate {items : Items} {container : Container}
    (hcontainer : container ≠ .trashContainer) (reader : Reader) :
    ∃ pages, ((Reader.next items container)^[pages + 1] reader).upToDate = true := by
  induction hlength : (reader.ahead items).length using Nat.strongRecOn generalizing reader with
  | ind length ih =>
      subst hlength
      cases hmore : (reader.next items container).upToDate with
      | true => exact ⟨0, hmore⟩
      | false =>
          obtain ⟨pages, hpages⟩ := ih _ (Reader.ahead_next_lt hcontainer hmore) _ rfl
          exact ⟨pages + 1, hpages⟩

theorem Reader.Follows.iterate {items : Items} (hdistinct : items.Distinct)
    {container : Container} (hcontainer : container ≠ .trashContainer) (pages : Nat)
    {reader : Reader} (h : reader.Follows items) :
    ((Reader.next items container)^[pages] reader).Follows items := by
  induction pages generalizing reader with
  | zero => exact h
  | succ pages ih => exact ih (h.take hdistinct hcontainer)

/-- In a run that spares what the anchors count on, a reader whose pages came to
an end missed nothing, whatever was written between the pages; and the pages do
come to an end when nobody writes. -/
theorem anchors_miss_nothing {s : State} (h : State.Runs State.Spares s) :
    ∀ reader ∈ s.readers,
      (reader.upToDate = true → reader.Complete s.items) ∧
      ∀ container ≠ Container.trashContainer, ∃ pages,
        ((Reader.next s.items container)^[pages] reader).upToDate = true ∧
        ((Reader.next s.items container)^[pages] reader).Complete s.items := by
  intro reader hreader
  have hfollows := h.inv.follows reader hreader
  refine ⟨hfollows.complete, ?_⟩
  intro container hcontainer
  obtain ⟨pages, hdone⟩ := @Reader.next_upToDate s.items _ hcontainer reader
  exact ⟨pages + 1, hdone,
    (hfollows.iterate h.inv.distinct hcontainer (pages + 1)).complete hdone⟩

/-- A note at the top level, named like its identifier. -/
def topLevel (name : String) : ItemRecord where
  identifier := name
  parentIdentifier := ""
  filename := name
  contentHash := none
  localPath := name
  isDirectory := false
  size := some 1
  modified := 1

/-- One note, an anchor, then another note. -/
def grown : State :=
  [Event.write (.insert (topLevel "a.md")), .currentSyncAnchor false,
    .write (.insert (topLevel "b.md"))].foldl State.step State.init

theorem State.spares_insert (s : State) (record : ItemRecord) :
    s.Spares (.write (.insert record)) := by
  intro r _ hdrop
  cases hdrop

theorem grown_reports_note : ∃ reader ∈ grown.readers, "b.md" ∈ reader.touched ∧
    ∃ pages, ((Reader.next grown.items .workingSet)^[pages] reader).Complete grown.items := by
  have hruns : State.Runs State.Spares grown := by
    apply State.Runs.init.foldl
    intro s event hevent
    simp only [List.mem_cons, List.not_mem_nil, or_false] at hevent
    obtain rfl | rfl | rfl := hevent
    · exact ⟨trivial, s.spares_insert _⟩
    · exact ⟨trivial, trivial⟩
    · exact ⟨trivial, s.spares_insert _⟩
  have hmem : grown.readers.head (by decide) ∈ grown.readers := List.head_mem _
  obtain ⟨pages, -, hcomplete⟩ := (anchors_miss_nothing hruns _ hmem).2 .workingSet (by decide)
  exact ⟨_, hmem, by decide, pages, hcomplete⟩

/-- The newest row is a tombstone when the anchor is handed out. The drain
deletes it, and a note created afterwards gets its version again. -/
def reused : State :=
  [Event.write (.insert (topLevel "a.md")), .write (.insert (topLevel "b.md")),
    .write (.setPending .plain "b.md" false true), .currentSyncAnchor false,
    .write (.drainPendingAfterSync true), .write (.insert (topLevel "c.md"))].foldl
    State.step State.init

theorem reused_misses_note : ¬∀ s, State.Runs (fun _ _ => True) s →
    ∀ reader ∈ s.readers, reader.upToDate = true → reader.Complete s.items := by
  intro hclaim
  have hruns : State.Runs (fun _ _ => True) reused := by
    apply State.Runs.init.foldl
    intro s event hevent
    simp only [List.mem_cons, List.not_mem_nil, or_false] at hevent
    obtain rfl | rfl | rfl | rfl | rfl | rfl := hevent <;> exact ⟨trivial, trivial⟩
  have hpage : enumerateChanges reused.items .workingSet 3 = ⟨[], [], 3, false⟩ := by
    have hnone : reused.items.rows.filter (fun r => 3 < r.rowVersion) = [] := by decide
    simp [enumerateChanges, Items.changes, hnone, pageSize]
  let reader : Reader := reused.readers.head (by decide)
  have hmem : reader ∈ reused.readers := List.head_mem _
  have hcomplete := hclaim _ (@State.Runs.step _ reused (.enumerateChanges .workingSet reader) hruns
    hmem trivial) (reader.take ⟨[], [], 3, false⟩) (by
      rw [← hpage]
      exact List.mem_cons_of_mem _ List.mem_cons_self) rfl
  have htold := hcomplete.1 { topLevel "c.md" with rowVersion := 2 } (by decide) (by decide)
  obtain ⟨u, hu, -⟩ : ∃ u ∈ ([] : List ItemRecord), u.shown = _ := htold
  cases hu

end ObSink.Ios
