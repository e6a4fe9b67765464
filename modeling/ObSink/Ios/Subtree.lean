import Mathlib.Data.List.Forall2
import ObSink.Ios.Versions

/-! # What a directory operation touches

`rename` and `setPending` find the rows under a directory with LIKE. Its pattern
is escaped, but LIKE takes ASCII letters in either case, so the rows of a second
directory that is spelled alike come along; and where Swift compares up to
canonical equivalence, LIKE compares code points, so the rows under another
spelling of the directory's path are left behind.
-/

namespace ObSink.Ios

/-! ## Below a directory -/

/-- The paths that a slash ends in a path, those of the directories above it. -/
def above (localPath : String) : List String :=
  (List.range localPath.toList.length).filterMap fun n =>
    if localPath.toList[n]? = some '/' then some (String.ofList (localPath.toList.take n))
    else none

theorem mem_above_iff {head localPath : String} :
    head ∈ above localPath ↔ ∃ rest, localPath = head ++ "/" ++ rest := by
  simp only [above, List.mem_filterMap, List.mem_range, Option.ite_none_right_eq_some,
    Option.some_inj]
  constructor
  · rintro ⟨n, -, hslash, rfl⟩
    obtain ⟨hn, hslash⟩ := List.getElem?_eq_some_iff.mp hslash
    have hsplit := List.take_append_drop n localPath.toList
    rw [← List.getElem_cons_drop hn, hslash] at hsplit
    refine ⟨String.ofList (localPath.toList.drop (n + 1)), ?_⟩
    rw [← String.toList_inj]
    simpa using hsplit.symm
  · rintro ⟨rest, rfl⟩
    have hlist : (head ++ "/" ++ rest).toList = head.toList ++ '/' :: rest.toList := by simp
    refine ⟨head.toList.length, ?_, ?_, ?_⟩
    · simp only [hlist, List.length_append, List.length_cons]
      omega
    · simp [hlist]
    · simp [hlist]

/-- When two spellings are the same path. Swift finds them equal then, and a path is not the
same as one that it only begins. -/
structure Reading (strings : Strings) where
  same : String → String → Bool
  refl : ∀ s, same s s = true
  symm : ∀ {s t}, same s t = true → same t s = true
  trans : ∀ {s t u}, same s t = true → same t u = true → same s u = true
  equal : ∀ {s t}, same s t = true → strings.equal s t = true
  append : ∀ {s t}, same (s ++ t) s = true → t = ""

namespace Reading

variable {strings : Strings}

/-- Paths are what is stored. -/
def stored (hrefl : ∀ s, strings.equal s s = true) : Reading strings where
  same := fun s t => s == t
  refl := fun s => beq_self_eq_true s
  symm := fun h => by
    rw [beq_iff_eq] at h ⊢
    exact h.symm
  trans := fun h h' => by
    rw [beq_iff_eq] at h h' ⊢
    exact h.trans h'
  equal := fun h => by
    rw [beq_iff_eq.mp h]
    exact hrefl _
  append := fun h => by simpa using h

/-- Paths are what Swift makes of them. -/
def swift (hrefl : ∀ s, strings.equal s s = true)
    (hsymm : ∀ {s t}, strings.equal s t = true → strings.equal t s = true)
    (htrans : ∀ {s t u}, strings.equal s t = true → strings.equal t u = true →
      strings.equal s u = true)
    (happend : ∀ {s t}, strings.equal (s ++ t) s = true → t = "") : Reading strings where
  same := strings.equal
  refl := hrefl
  symm := hsymm
  trans := htrans
  equal := id
  append := happend

variable (reading : Reading strings)

/-- Below a directory, by any spelling of its path. -/
def below (directoryPath localPath : String) : Bool :=
  (above localPath).any fun head => reading.same head directoryPath

def atOrBelow (directoryPath localPath : String) : Bool :=
  reading.same localPath directoryPath || reading.below directoryPath localPath

/-- A path below `old` becomes one below `new`. -/
def Moves (old new localPath localPath' : String) : Prop :=
  ∃ head head' rest, localPath = head ++ "/" ++ rest ∧ localPath' = head' ++ "/" ++ rest ∧
    reading.same head old = true ∧ reading.same head' new = true

variable {reading}

theorem below_iff {directoryPath localPath : String} :
    reading.below directoryPath localPath = true ↔
      ∃ head rest, localPath = head ++ "/" ++ rest ∧ reading.same head directoryPath = true := by
  simp only [below, List.any_eq_true, mem_above_iff]
  constructor
  · rintro ⟨head, ⟨rest, hpath⟩, hsame⟩
    exact ⟨head, rest, hpath, hsame⟩
  · rintro ⟨head, rest, hpath, hsame⟩
    exact ⟨head, ⟨rest, hpath⟩, hsame⟩

/-- Two divisions of a path that begin with the same one are the same. -/
theorem append_inj {s t s' t' : String} (hpath : s ++ t = s' ++ t')
    (hsame : reading.same s s' = true) : s = s' := by
  rw [← String.toList_inj, String.toList_append, String.toList_append,
    List.append_eq_append_iff] at hpath
  obtain ⟨more, hmore, -⟩ | ⟨more, hmore, -⟩ := hpath
  · have hs' : s' = s ++ String.ofList more := by
      rw [← String.toList_inj, String.toList_append, String.toList_ofList, hmore]
    rw [hs'] at hsame
    rw [hs', reading.append (reading.symm hsame), String.append_empty]
  · have hs : s = s' ++ String.ofList more := by
      rw [← String.toList_inj, String.toList_append, String.toList_ofList, hmore]
    rw [hs] at hsame
    rw [hs, reading.append hsame, String.append_empty]

/-- What stays where it is has moved iff both names are the same. -/
theorem moves_self_iff {old new localPath : String} :
    reading.Moves old new localPath localPath ↔
      reading.below old localPath = true ∧ reading.same old new = true := by
  constructor
  · rintro ⟨head, head', rest, hpath, hpath', hold, hnew⟩
    have hhead : head = head' := by
      rw [hpath, String.append_left_inj, String.append_left_inj] at hpath'
      exact hpath'
    rw [← hhead] at hnew
    exact ⟨below_iff.mpr ⟨head, rest, hpath, hold⟩, reading.trans (reading.symm hold) hnew⟩
  · rintro ⟨hbelow, hsame⟩
    obtain ⟨head, rest, hpath, hold⟩ := below_iff.mp hbelow
    exact ⟨head, head, rest, hpath, hpath, hold, reading.trans hold hsame⟩

/-- A new name in front moves a path iff it replaces the old one. -/
theorem moves_splice_iff {old new head tail : String}
    (hbelow : reading.below old (head ++ tail) = true) :
    reading.Moves old new (head ++ tail) (new ++ tail) ↔ reading.same head old = true := by
  constructor
  · rintro ⟨head₁, head₂, rest, hpath, hpath', hold, hnew⟩
    rw [String.append_assoc] at hpath hpath'
    have hhead₂ := append_inj hpath' (reading.symm hnew)
    rw [hhead₂, String.append_right_inj] at hpath'
    rw [hpath', String.append_left_inj] at hpath
    rwa [hpath]
  · intro hhead
    obtain ⟨head₁, rest, hpath, hold⟩ := below_iff.mp hbelow
    have hpath' := hpath
    rw [String.append_assoc] at hpath'
    have hhead₁ := append_inj hpath' (reading.trans hhead (reading.symm hold))
    rw [hhead₁, String.append_right_inj] at hpath'
    refine ⟨head₁, new, rest, hpath, ?_, hold, reading.refl new⟩
    rw [hpath', String.append_assoc]

end Reading

namespace Items

theorem mem_descendants_iff {strings : Strings} {items : Items} {directoryPath : String}
    {r : ItemRecord} :
    r ∈ items.descendants strings directoryPath ↔
      r ∈ items.rows ∧ under strings directoryPath r.localPath = true := by
  rw [descendants, (List.mergeSort_perm _ _).mem_iff, List.mem_filter]

/-! ## Row by row -/

theorem update_rows (items : Items) (rec : ItemRecord) :
    (items.update rec).rows =
      items.rows.map fun r => if r.identifier = rec.identifier then rec else r := rfl

/-- Rows that are rewritten one after the other. -/
theorem foldl_update_rows (f : ItemRecord → ItemRecord)
    (hsame : ∀ r, (f r).identifier = r.identifier) (l : List ItemRecord) (items : Items)
    (hmem : ∀ r ∈ l, r ∈ items.rows) (hkey : (l.map (·.identifier)).Nodup) :
    (l.foldl (fun items child => items.update (f child)) items).rows =
      items.rows.map fun r => if r ∈ l then f r else r := by
  induction l generalizing items with
  | nil => simp
  | cons child rest ih =>
      rw [List.map_cons, List.nodup_cons] at hkey
      have hchild := hmem child List.mem_cons_self
      have hrest : ∀ r ∈ rest, r ∈ (items.update (f child)).rows := by
        intro r hr
        refine mem_update.mpr (.inl ⟨hmem r (List.mem_cons_of_mem _ hr), ?_⟩)
        intro heq
        rw [hsame] at heq
        exact hkey.1 (List.mem_map.mpr ⟨r, hr, heq⟩)
      rw [List.foldl_cons, ih _ hrest hkey.2, update_rows, List.map_map]
      apply List.map_congr_left
      intro r hr
      simp only [Function.comp_apply, hsame]
      by_cases hid : r.identifier = child.identifier
      · obtain rfl := items.eq_of_identifier hr hchild hid
        have hgone : f r ∉ rest := by
          intro hfr
          exact hkey.1 (List.mem_map.mpr ⟨f r, hfr, hsame r⟩)
        rw [if_pos rfl, if_neg hgone, if_pos List.mem_cons_self]
      · have hne : r ≠ child := fun heq => hid (heq ▸ rfl)
        simp only [hid, if_false, List.mem_cons, hne, false_or]

/-- A row as a queued deletion leaves it. -/
def tombstoned (r : ItemRecord) (version : Int) : ItemRecord :=
  { r with
    pendingDeletion := true
    isDeleted := true
    rowVersion := version }

/-- The rows that `tombstone` flags get versions from `next` on, each its own. -/
theorem tombstone_rows (l : List ItemRecord) (items : Items) (next : Int)
    (hmem : ∀ r ∈ l, r ∈ items.rows) (hkey : (l.map (·.identifier)).Nodup) :
    ∃ version : String → Int,
      (∀ r ∈ l, r.isDeleted = false → next ≤ version r.identifier) ∧
      (∀ r ∈ l, ∀ r' ∈ l, r.isDeleted = false → r'.isDeleted = false →
        version r.identifier = version r'.identifier → r.identifier = r'.identifier) ∧
      (items.tombstone next l).rows = items.rows.map fun r =>
        if r ∈ l ∧ r.isDeleted = false then tombstoned r (version r.identifier) else r := by
  induction l generalizing items next with
  | nil => exact ⟨fun _ => next, by simp, by simp, by simp [tombstone]⟩
  | cons child rest ih =>
      rw [List.map_cons, List.nodup_cons] at hkey
      have hchild := hmem child List.mem_cons_self
      have hrest : ∀ r ∈ rest, r ∈ items.rows := fun r hr => hmem r (List.mem_cons_of_mem _ hr)
      have hother : ∀ r ∈ rest, r.identifier ≠ child.identifier := by
        intro r hr heq
        exact hkey.1 (List.mem_map.mpr ⟨r, hr, heq⟩)
      rw [tombstone]
      -- a row already deleted keeps its version and takes no number
      by_cases hdeleted : child.isDeleted = true
      · obtain ⟨version, hnext, hinj, hrows⟩ := ih items next hrest hkey.2
        refine ⟨version, ?_, ?_, ?_⟩
        · intro r hr hlive
          obtain rfl | hr := List.mem_cons.mp hr
          · rw [hdeleted] at hlive
            cases hlive
          · exact hnext r hr hlive
        · intro r hr r' hr' hlive hlive' hversion
          obtain rfl | hr := List.mem_cons.mp hr
          · rw [hdeleted] at hlive
            cases hlive
          obtain rfl | hr' := List.mem_cons.mp hr'
          · rw [hdeleted] at hlive'
            cases hlive'
          exact hinj r hr r' hr' hlive hlive' hversion
        · rw [if_pos hdeleted, hrows]
          apply List.map_congr_left
          intro r hr
          by_cases hself : r = child
          · rw [hself]
            simp [hdeleted]
          · simp only [List.mem_cons, hself, false_or]
      · have hupdated : ∀ r ∈ rest, r ∈ (items.update (tombstoned child next)).rows := fun r hr =>
          mem_update.mpr (.inl ⟨hrest r hr, hother r hr⟩)
        obtain ⟨version, hnext, hinj, hrows⟩ := ih _ (next + 1) hupdated hkey.2
        -- the numbers of the rest start above this one
        refine ⟨Function.update version child.identifier next, ?_, ?_, ?_⟩
        · intro r hr hlive
          obtain rfl | hr := List.mem_cons.mp hr
          · simp
          · rw [Function.update_of_ne (hother r hr)]
            have := hnext r hr hlive
            omega
        · intro r hr r' hr' hlive hlive' hversion
          obtain rfl | hin := List.mem_cons.mp hr
          · obtain rfl | hin' := List.mem_cons.mp hr'
            · rfl
            · rw [Function.update_self, Function.update_of_ne (hother r' hin')] at hversion
              have := hnext r' hin' hlive'
              omega
          · obtain rfl | hin' := List.mem_cons.mp hr'
            · rw [Function.update_self, Function.update_of_ne (hother r hin)] at hversion
              have := hnext r hin hlive
              omega
            · rw [Function.update_of_ne (hother r hin), Function.update_of_ne (hother r' hin')]
                at hversion
              exact hinj r hin r' hin' hlive hlive' hversion
        · rw [if_neg hdeleted]
          change ((items.update (tombstoned child next)).tombstone (next + 1) rest).rows = _
          rw [hrows, update_rows, List.map_map]
          apply List.map_congr_left
          intro r hr
          simp only [Function.comp_apply]
          by_cases hid : r.identifier = child.identifier
          · obtain rfl := items.eq_of_identifier hr hchild hid
            have hgone : tombstoned r next ∉ rest := by
              intro hr'
              exact hother _ hr' rfl
            have hlive : r.isDeleted = false := by simpa using hdeleted
            have hself : r.identifier = (tombstoned r next).identifier := rfl
            rw [if_pos hself, if_neg (fun h => hgone h.1), if_pos ⟨List.mem_cons_self, hlive⟩,
              Function.update_self]
          · have hne : r ≠ child := fun heq => hid (heq ▸ rfl)
            have hid' : r.identifier ≠ (tombstoned child next).identifier := hid
            simp only [hid', if_false, List.mem_cons, hne, false_or, Function.update_of_ne hid]

/-- The rows below a directory are looked up after its own row was replaced. -/
theorem mem_descendants_update (strings : Strings) (items : Items) (path : String)
    {rec rec' r : ItemRecord} (hsame : rec'.identifier = rec.identifier) (hr : r ∈ items.rows) :
    (if r.identifier = rec.identifier then rec' else r) ∈
        (items.update rec').descendants strings path ↔
      under strings path (if r.identifier = rec.identifier then rec' else r).localPath = true := by
  rw [mem_descendants_iff, update_rows]
  have hmem : (if r.identifier = rec.identifier then rec' else r) ∈
      items.rows.map fun r => if r.identifier = rec'.identifier then rec' else r :=
    List.mem_map.mpr ⟨r, hr, by rw [hsame]⟩
  exact and_iff_right hmem

/-- A directory's own row after `rename`. -/
def renamed (items : Items) (rec : ItemRecord) (localPath filename parentIdentifier : String) :
    ItemRecord :=
  { rec with
    filename := filename
    localPath := localPath
    parentIdentifier := parentIdentifier
    rowVersion := items.maxRowVersion + 1 }

/-- A path after the new one took the place of as many characters as the old one has. -/
def splice (characters : String → List String) (oldPath newPath localPath : String) : String :=
  newPath ++ dropFirst characters localPath (count characters oldPath)

/-- A row below it. -/
def spliced (characters : String → List String) (oldPath localPath : String) (r : ItemRecord) :
    ItemRecord :=
  { r with localPath := splice characters oldPath localPath r.localPath }

/-- A directory's own row after `setPending`. -/
def flagged (items : Items) (rec : ItemRecord) (upload : Bool) : ItemRecord :=
  { rec with
    pendingUpload := upload || rec.pendingUpload
    pendingDeletion := true
    isDeleted := true
    rowVersion := items.maxRowVersion + 1 }

section

variable {items : Items} {identifier : String} {rec : ItemRecord}
  (hfetch : items.fetch identifier = some rec) (hdirectory : rec.isDirectory = true)

include hfetch hdirectory

theorem rename_rows (strings : Strings) (localPath filename parentIdentifier : String) :
    (items.rename strings identifier localPath filename parentIdentifier).rows =
      items.rows.map fun r =>
        let r' := if r.identifier = rec.identifier then
            items.renamed rec localPath filename parentIdentifier
          else r
        if strings.equal rec.localPath localPath = false ∧
            under strings rec.localPath r'.localPath = true then
          spliced strings.characters rec.localPath localPath r'
        else r' := by
  rw [rename, hfetch]
  change (if (rec.isDirectory && !strings.equal rec.localPath localPath) = true then
      ((items.update (items.renamed rec localPath filename parentIdentifier)).descendants strings
        rec.localPath).foldl (fun items child =>
          items.update (spliced strings.characters rec.localPath localPath child))
        (items.update (items.renamed rec localPath filename parentIdentifier))
    else items.update (items.renamed rec localPath filename parentIdentifier)).rows = _
  cases hmoves : strings.equal rec.localPath localPath with
  | true =>
      simp only [Bool.not_true, Bool.and_false, Bool.false_eq_true, if_false, Bool.true_eq_false,
        false_and]
      rfl
  | false =>
      rw [if_pos (by simp [hdirectory]),
        foldl_update_rows _ (by intro r; rfl) _ _ (fun _ => mem_descendants)
          (descendants_key _ _ _), update_rows, List.map_map]
      apply List.map_congr_left
      intro r hr
      simp only [Function.comp_apply]
      have hid : (items.renamed rec localPath filename parentIdentifier).identifier =
        rec.identifier := rfl
      rw [hid]
      have hin := mem_descendants_update strings items rec.localPath hid hr
      simp only [hin, true_and]

/-- `setPending` with `deletion` set. -/
theorem setPending_rows (strings : Strings) (upload : Bool) :
    ∃ version : String → Int,
      (∀ r ∈ items.rows, r.identifier ≠ rec.identifier → r.isDeleted = false →
        under strings rec.localPath r.localPath = true →
          items.maxRowVersion + 1 < version r.identifier) ∧
      (∀ r ∈ items.rows, ∀ r' ∈ items.rows, r.identifier ≠ rec.identifier →
        r'.identifier ≠ rec.identifier → r.isDeleted = false → r'.isDeleted = false →
        under strings rec.localPath r.localPath = true →
        under strings rec.localPath r'.localPath = true →
          version r.identifier = version r'.identifier → r.identifier = r'.identifier) ∧
      (items.setPending strings identifier upload true).rows = items.rows.map fun r =>
        if r.identifier = rec.identifier then items.flagged rec upload
        else if under strings rec.localPath r.localPath = true ∧ r.isDeleted = false then
          tombstoned r (version r.identifier)
        else r := by
  have hid : (items.flagged rec upload).identifier = rec.identifier := rfl
  obtain ⟨version, hnext, hinj, hrows⟩ := tombstone_rows
    ((items.update (items.flagged rec upload)).descendants strings rec.localPath)
    (items.update (items.flagged rec upload)) (items.maxRowVersion + 2) (fun _ => mem_descendants)
    (descendants_key _ _ _)
  -- a row other than the directory's own is below it after the first update iff it was before
  have hin : ∀ r ∈ items.rows, r.identifier ≠ rec.identifier →
      (r ∈ (items.update (items.flagged rec upload)).descendants strings rec.localPath ↔
        under strings rec.localPath r.localPath = true) := by
    intro r hr hne
    have hmem := mem_descendants_update strings items rec.localPath hid hr
    rwa [if_neg hne] at hmem
  refine ⟨version, ?_, ?_, ?_⟩
  · intro r hr hne hlive hunder
    have := hnext r ((hin r hr hne).mpr hunder) hlive
    omega
  · intro r hr r' hr' hne hne' hlive hlive' hunder hunder'
    exact hinj r ((hin r hr hne).mpr hunder) r' ((hin r' hr' hne').mpr hunder') hlive hlive'
  · rw [setPending, hfetch]
    change (if true = true ∧ rec.isDirectory = true then
        (items.update (items.flagged rec upload)).tombstone (items.maxRowVersion + 1 + 1)
          ((items.update (items.flagged rec upload)).descendants strings rec.localPath)
      else items.update (items.flagged rec upload)).rows = _
    rw [if_pos ⟨rfl, hdirectory⟩, Int.add_assoc]
    change ((items.update (items.flagged rec upload)).tombstone (items.maxRowVersion + 2) _).rows =
      _
    rw [hrows, update_rows, List.map_map]
    apply List.map_congr_left
    intro r hr
    simp only [Function.comp_apply, hid]
    by_cases hself : r.identifier = rec.identifier
    · -- its own row is a tombstone already when LIKE comes upon it
      have hdeleted : (items.flagged rec upload).isDeleted = true := rfl
      simp only [hself, if_true, hdeleted, Bool.true_eq_false, and_false, if_false]
    · simp only [hself, if_false, hin r hr hself]

end

end Items

/-! ## Exactly the subtree -/

section

variable {strings : Strings} (reading : Reading strings)

/-- A directory was renamed: the rows strictly below it moved along, and nothing else changed. -/
def RenamesSubtree (items after : Items) (rec : ItemRecord)
    (localPath filename parentIdentifier : String) : Prop :=
  List.Forall₂ (fun r r' =>
    if r.identifier = rec.identifier then
      r' = items.renamed rec localPath filename parentIdentifier
    else if reading.below rec.localPath r.localPath then
      ∃ path', reading.Moves rec.localPath localPath r.localPath path' ∧
        r' = { r with localPath := path' }
    else r' = r) items.rows after.rows

/-- A directory was deleted: the live rows at and below it are tombstones with a version of their
own, above all versions there were, and nothing else changed. -/
def TombstonesSubtree (items after : Items) (rec : ItemRecord) (upload : Bool) : Prop :=
  ∃ version : String → Int,
    (∀ r ∈ items.rows, r.isDeleted = false → reading.atOrBelow rec.localPath r.localPath →
      items.maxRowVersion < version r.identifier) ∧
    (∀ r ∈ items.rows, ∀ r' ∈ items.rows, r.isDeleted = false → r'.isDeleted = false →
      reading.atOrBelow rec.localPath r.localPath → reading.atOrBelow rec.localPath r'.localPath →
        version r.identifier = version r'.identifier → r.identifier = r'.identifier) ∧
    after.rows = items.rows.map fun r =>
      if reading.atOrBelow rec.localPath r.localPath ∧ r.isDeleted = false then
        { r with
          pendingUpload := (r.identifier = rec.identifier && upload) || r.pendingUpload
          pendingDeletion := true
          isDeleted := true
          rowVersion := version r.identifier }
      else r

/-- The characters of a path that stand where those of the old path would, counted in
`Character`s. -/
def headPath (characters : String → List String) (oldPath localPath : String) : String :=
  String.join ((characters localPath).take (Items.count characters oldPath))

/-- A new path that Swift finds equal to the old one is the same path, or nothing is below it.
Else LIKE finds every row that is below the directory, and its path divides into characters where
the old path ends; and of what LIKE finds besides, the path starts with the new path already. -/
def RenamesCleanly (items : Items) (rec : ItemRecord) (localPath : String) : Prop :=
  if strings.equal rec.localPath localPath then
    ∀ r ∈ items.rows, r.identifier ≠ rec.identifier →
      reading.below rec.localPath r.localPath → reading.same rec.localPath localPath
  else
    (∀ r ∈ items.rows, r.identifier ≠ rec.identifier →
      if reading.below rec.localPath r.localPath then
        Items.under strings rec.localPath r.localPath ∧
          reading.same (headPath strings.characters rec.localPath r.localPath) rec.localPath
      else
        Items.under strings rec.localPath r.localPath →
          headPath strings.characters rec.localPath r.localPath = localPath) ∧
    (Items.under strings rec.localPath localPath →
      headPath strings.characters rec.localPath localPath = localPath)

/-- The directory's row is live, and of the other live rows LIKE finds those that are at its path
or below it. -/
def DeletesCleanly (items : Items) (rec : ItemRecord) : Prop :=
  rec.isDeleted = false ∧
    ∀ r ∈ items.rows, r.isDeleted = false → r.identifier ≠ rec.identifier →
      Items.under strings rec.localPath r.localPath = reading.atOrBelow rec.localPath r.localPath

end

/-! ### Splicing -/

section

variable {characters : String → List String} (hspell : ∀ s, String.join (characters s) = s)

include hspell

theorem headPath_append (oldPath localPath : String) :
    headPath characters oldPath localPath ++
      Items.dropFirst characters localPath (Items.count characters oldPath) = localPath := by
  rw [headPath, Items.dropFirst, ← String.join_append, List.take_append_drop, hspell]

/-- A path is spliced into itself iff its first characters spell the new path, -/
theorem splice_eq_self_iff {oldPath newPath localPath : String} :
    Items.splice characters oldPath newPath localPath = localPath ↔
      headPath characters oldPath localPath = newPath := by
  have hwhole := headPath_append hspell oldPath localPath
  constructor
  · intro hself
    exact (String.append_left_inj _).mp (hwhole.trans hself.symm)
  · intro hhead
    rw [Items.splice, ← hhead, hwhole]

/-- and as it should be iff they spell the old path. -/
theorem moves_splice_iff {strings : Strings} {reading : Reading strings}
    {oldPath newPath localPath : String} (hbelow : reading.below oldPath localPath = true) :
    reading.Moves oldPath newPath localPath
        (Items.splice characters oldPath newPath localPath) ↔
      reading.same (headPath characters oldPath localPath) oldPath = true := by
  have hwhole := headPath_append hspell oldPath localPath
  rw [← hwhole] at hbelow
  have hiff := @Reading.moves_splice_iff strings reading oldPath newPath _ _ hbelow
  rwa [hwhole] at hiff

end

theorem ItemRecord.moved_eq_self_iff {r : ItemRecord} {localPath : String} :
    { r with localPath := localPath } = r ↔ localPath = r.localPath := by
  constructor
  · intro heq
    exact congrArg (·.localPath) heq
  · intro hpath
    rw [hpath]

theorem ItemRecord.exists_moved_iff {r : ItemRecord} {localPath : String} {p : String → Prop} :
    (∃ path', p path' ∧ { r with localPath := localPath } = { r with localPath := path' }) ↔
      p localPath := by
  constructor
  · rintro ⟨path', hp, heq⟩
    have hpath : localPath = path' := congrArg (·.localPath) heq
    rwa [hpath]
  · intro hp
    exact ⟨localPath, hp, rfl⟩

/-! ### The exact conditions -/

section

variable {strings : Strings} {reading : Reading strings} {items : Items} {identifier : String}
  {rec : ItemRecord} (hfetch : items.fetch identifier = some rec)
  (hdirectory : rec.isDirectory = true)

include hfetch hdirectory

theorem renamesSubtree_iff (hspell : ∀ s, String.join (strings.characters s) = s)
    (localPath filename parentIdentifier : String) :
    RenamesSubtree reading items
        (items.rename strings identifier localPath filename parentIdentifier) rec
        localPath filename parentIdentifier ↔
      RenamesCleanly reading items rec localPath := by
  rw [RenamesSubtree, Items.rename_rows hfetch hdirectory, List.forall₂_map_right_iff,
    List.forall₂_same, RenamesCleanly]
  cases hequal : strings.equal rec.localPath localPath with
  | true =>
      -- nothing is spliced: a row stays where it is
      simp only [Bool.true_eq_false, false_and, if_false, if_true]
      apply forall₂_congr
      intro r hr
      by_cases hid : r.identifier = rec.identifier
      · simp only [hid, if_true, ne_eq, not_true_eq_false, false_imp_iff]
      · simp only [hid, if_false, ne_eq, not_false_eq_true, forall_const]
        by_cases hbelow : reading.below rec.localPath r.localPath = true
        · have hself := @ItemRecord.exists_moved_iff r r.localPath
            (reading.Moves rec.localPath localPath r.localPath)
          simp only [hbelow, if_true, forall_const]
          rw [hself, Reading.moves_self_iff]
          exact and_iff_right hbelow
        · simp only [hbelow, Bool.false_eq_true, if_false, false_imp_iff]
  | false =>
      have hself : ∀ r : ItemRecord,
          Items.spliced strings.characters rec.localPath localPath r = r ↔
            headPath strings.characters rec.localPath r.localPath = localPath := fun r =>
        ItemRecord.moved_eq_self_iff.trans (splice_eq_self_iff hspell)
      simp only [true_and, Bool.false_eq_true, if_false]
      constructor
      · intro heq
        refine ⟨?_, ?_⟩
        · intro r hr hid
          have hrow := heq r hr
          simp only [hid, if_false] at hrow
          by_cases hbelow : reading.below rec.localPath r.localPath = true
          · simp only [hbelow, if_true] at hrow ⊢
            by_cases hunder : Items.under strings rec.localPath r.localPath = true
            · rw [if_pos hunder] at hrow
              exact ⟨hunder, (moves_splice_iff hspell hbelow).mp
                (ItemRecord.exists_moved_iff.mp hrow)⟩
            · -- LIKE does not find it, so it stays
              rw [if_neg hunder] at hrow
              have hmoves := (@ItemRecord.exists_moved_iff r r.localPath
                (reading.Moves rec.localPath localPath r.localPath)).mp hrow
              have hsame := reading.equal (Reading.moves_self_iff.mp hmoves).2
              rw [hequal] at hsame
              cases hsame
          · simp only [hbelow, Bool.false_eq_true, if_false] at hrow ⊢
            intro hunder
            rw [if_pos hunder] at hrow
            exact (hself r).mp hrow
        · intro hunder
          obtain ⟨hrec, -⟩ := Items.mem_of_fetch hfetch
          have hrow := heq rec hrec
          simp only [if_true, Items.renamed, hunder] at hrow
          exact (hself _).mp hrow
      · rintro ⟨hrows, hown⟩ r hr
        by_cases hid : r.identifier = rec.identifier
        · simp only [hid, if_true]
          split
          next hunder => exact (hself _).mpr (hown hunder)
          next => rfl
        · have hrow := hrows r hr hid
          simp only [hid, if_false]
          by_cases hbelow : reading.below rec.localPath r.localPath = true
          · simp only [hbelow, if_true] at hrow ⊢
            rw [if_pos hrow.1]
            exact ItemRecord.exists_moved_iff.mpr ((moves_splice_iff hspell hbelow).mpr hrow.2)
          · simp only [hbelow, Bool.false_eq_true, if_false] at hrow ⊢
            split
            next hunder => exact (hself r).mpr (hrow hunder)
            next => rfl

theorem tombstonesSubtree_iff (upload : Bool) :
    TombstonesSubtree reading items (items.setPending strings identifier upload true) rec upload ↔
      DeletesCleanly reading items rec := by
  have hrec := (Items.mem_of_fetch hfetch).1
  have hat : reading.atOrBelow rec.localPath rec.localPath = true := by
    simp [Reading.atOrBelow, reading.refl]
  obtain ⟨version, hnext, hinj, hrows⟩ := Items.setPending_rows hfetch hdirectory strings upload
  rw [TombstonesSubtree, hrows]
  constructor
  · rintro ⟨version', -, -, heq⟩
    rw [List.map_inj_left] at heq
    refine ⟨?_, ?_⟩
    · cases hdeleted : rec.isDeleted with
      | false => rfl
      | true =>
          -- a tombstone would get a new version
          have hrow := heq rec hrec
          simp only [if_true, hdeleted, Bool.true_eq_false, and_false, if_false] at hrow
          have hversion : items.maxRowVersion + 1 = rec.rowVersion := congrArg (·.rowVersion) hrow
          have := Items.le_maxRowVersion hrec
          omega
    · intro r hr hlive hid
      have hrow := congrArg (·.isDeleted) (heq r hr)
      simp only [hid, if_false, hlive, and_true] at hrow
      cases hunder : Items.under strings rec.localPath r.localPath with
      | true =>
          cases hbelow : reading.atOrBelow rec.localPath r.localPath with
          | true => rfl
          | false => simp [hunder, hbelow, Items.tombstoned, hlive] at hrow
      | false =>
          cases hbelow : reading.atOrBelow rec.localPath r.localPath with
          | true => simp [hunder, hbelow, hlive] at hrow
          | false => rfl
  · rintro ⟨hlive, hclean⟩
    refine ⟨Function.update version rec.identifier (items.maxRowVersion + 1), ?_, ?_, ?_⟩
    · intro r hr hrlive hat
      by_cases hid : r.identifier = rec.identifier
      · rw [hid, Function.update_self]
        omega
      · rw [Function.update_of_ne hid]
        have := hnext r hr hid hrlive ((hclean r hr hrlive hid).trans hat)
        omega
    · intro r hr r' hr' hrlive hrlive' hat hat' hversion
      by_cases hid : r.identifier = rec.identifier
      · by_cases hid' : r'.identifier = rec.identifier
        · rw [hid, hid']
        · rw [hid, Function.update_self, Function.update_of_ne hid'] at hversion
          have := hnext r' hr' hid' hrlive' ((hclean r' hr' hrlive' hid').trans hat')
          omega
      · by_cases hid' : r'.identifier = rec.identifier
        · rw [hid', Function.update_self, Function.update_of_ne hid] at hversion
          have := hnext r hr hid hrlive ((hclean r hr hrlive hid).trans hat)
          omega
        · rw [Function.update_of_ne hid, Function.update_of_ne hid'] at hversion
          exact hinj r hr r' hr' hid hid' hrlive hrlive' ((hclean r hr hrlive hid).trans hat)
            ((hclean r' hr' hrlive' hid').trans hat') hversion
    · apply List.map_congr_left
      intro r hr
      by_cases hid : r.identifier = rec.identifier
      · obtain rfl := items.eq_of_identifier hr hrec hid
        rw [if_pos rfl, if_pos ⟨hat, hlive⟩, Function.update_self]
        simp [Items.flagged]
      · by_cases hrlive : r.isDeleted = false
        · simp only [hid, if_false, hrlive, and_true, hclean r hr hrlive hid,
            Function.update_of_ne hid, decide_false, Bool.false_and, Bool.false_or]
          rfl
        · rw [if_neg hid, if_neg fun h => hrlive h.2, if_neg fun h => hrlive h.2]

end

/-- When a rename and a deletion touch exactly the subtree of their directory. -/
theorem directory_operations_iff {strings : Strings} (reading : Reading strings)
    (hspell : ∀ s, String.join (strings.characters s) = s) {items : Items} {identifier : String}
    {rec : ItemRecord} (hfetch : items.fetch identifier = some rec)
    (hdirectory : rec.isDirectory = true) (localPath filename parentIdentifier : String)
    (upload : Bool) :
    (RenamesSubtree reading items
        (items.rename strings identifier localPath filename parentIdentifier) rec
        localPath filename parentIdentifier ↔
      RenamesCleanly reading items rec localPath) ∧
    (TombstonesSubtree reading items (items.setPending strings identifier upload true) rec upload ↔
      DeletesCleanly reading items rec) :=
  ⟨renamesSubtree_iff hfetch hdirectory hspell localPath filename parentIdentifier,
    tombstonesSubtree_iff hfetch hdirectory upload⟩

/-! ## Code points that stand alone -/

theorem Strings.plain_characters (s : String) : String.join (Strings.plain.characters s) = s := by
  rw [← String.toList_inj, String.toList_join, Strings.plain, List.flatMap_map]
  simp

/-- A path is what is stored. -/
def plainPaths : Reading .plain := .stored fun s => beq_self_eq_true s

theorem Strings.plain_replacing (target : Char) (s : String) :
    (Strings.plain.replacingOccurrences (String.singleton target)
      ("\\" ++ String.singleton target) s).toList = Like.replacing '\\' target s.toList := by
  rw [Strings.plain, Like.replacing, String.toList_join, List.map_map, List.flatMap_map]
  congr 1
  funext c
  by_cases hc : c = target
  · simp [hc]
  · have hne : String.singleton c ≠ String.singleton target := by
      intro heq
      have hlist := congrArg String.toList heq
      simp only [String.toList_singleton, List.cons.injEq, and_true] at hlist
      exact hc hlist
    simp [hc, hne]

theorem Items.plain_descendantsPattern (directoryPath : String) :
    (descendantsPattern .plain directoryPath).toList =
      Like.escaped '\\' directoryPath.toList ++ ['/', '%'] := by
  have hbackslash := Strings.plain_replacing '\\'
  have hpercent := Strings.plain_replacing '%'
  have hunderscore := Strings.plain_replacing '_'
  rw [descendantsPattern, String.toList_append, Like.escaped, ← hbackslash, ← hpercent,
    ← hunderscore]
  rfl

theorem Items.plain_under (directoryPath localPath : String) :
    under .plain directoryPath localPath =
      ((directoryPath ++ "/").toList.map Char.toLower).isPrefixOf
        (localPath.toList.map Char.toLower) := by
  rw [under, plain_descendantsPattern, Like.like_escaped '\\' (by decide) (by decide) (by decide),
    String.toList_append]
  rfl

/-- LIKE finds every row below the directory, and its path divides where the old one ends. -/
theorem plain_below {directoryPath localPath : String}
    (hbelow : plainPaths.below directoryPath localPath = true) :
    Items.under .plain directoryPath localPath = true ∧
      headPath Strings.plain.characters directoryPath localPath = directoryPath := by
  obtain ⟨head, rest, rfl, hsame⟩ := Reading.below_iff.mp hbelow
  obtain rfl : head = directoryPath := beq_iff_eq.mp hsame
  constructor
  · rw [Items.plain_under, List.isPrefixOf_iff_prefix, @String.toList_append (head ++ "/") _]
    exact (List.prefix_append _ _).map _
  · have htake : ((head ++ "/" ++ rest).toList.map String.singleton).take head.toList.length =
        head.toList.map String.singleton := by
      rw [← List.map_take, String.append_assoc, String.toList_append, List.take_left]
    rw [headPath, Items.count]
    change String.join (((head ++ "/" ++ rest).toList.map String.singleton).take
      (head.toList.map String.singleton).length) = head
    rw [List.length_map, htake]
    exact Strings.plain_characters head

/-- So nothing is missed by a rename, and what goes wrong is a row that LIKE finds elsewhere. -/
theorem renamesCleanly_plain_iff {items : Items} {rec : ItemRecord} {localPath : String} :
    RenamesCleanly plainPaths items rec localPath ↔
      (rec.localPath ≠ localPath →
        (∀ r ∈ items.rows, r.identifier ≠ rec.identifier →
          Items.under .plain rec.localPath r.localPath = true →
          plainPaths.below rec.localPath r.localPath = false →
            headPath Strings.plain.characters rec.localPath r.localPath = localPath) ∧
        (Items.under .plain rec.localPath localPath = true →
          headPath Strings.plain.characters rec.localPath localPath = localPath)) := by
  have hequal : Strings.plain.equal rec.localPath localPath = true ↔ rec.localPath = localPath :=
    beq_iff_eq
  rw [RenamesCleanly]
  by_cases hmoves : rec.localPath = localPath
  · rw [if_pos (hequal.mpr hmoves)]
    exact iff_of_true (fun _ _ _ _ => hequal.mpr hmoves) fun hne => absurd hmoves hne
  · rw [if_neg fun h => hmoves (hequal.mp h)]
    simp only [ne_eq, hmoves, not_false_eq_true, forall_const]
    refine and_congr_left fun _ => ?_
    apply forall₂_congr
    intro r hr
    apply imp_congr_right
    intro _
    cases hbelow : plainPaths.below rec.localPath r.localPath with
    | true =>
        obtain ⟨hunder, hhead⟩ := plain_below hbelow
        simp only [if_true, Bool.true_eq_false, false_imp_iff, imp_true_iff, iff_true]
        refine ⟨hunder, ?_⟩
        rw [hhead]
        exact plainPaths.refl _
    | false => simp only [Bool.false_eq_true, if_false, forall_const]

/-- A row of a table of directories and notes, named by its path. -/
def pathRow (localPath : String) (isDirectory : Bool) : ItemRecord :=
  { identifier := localPath
    parentIdentifier := ""
    filename := localPath
    contentHash := none
    localPath := localPath
    isDirectory := isDirectory
    size := none
    modified := 0 }

/-- A directory with a wildcard in its name, beside one that the wildcard would match. -/
def wildcardRows : Items where
  rows := [pathRow "50%" true, pathRow "50%/a" false, pathRow "50_" true, pathRow "50_/a" false]
  key := by decide

theorem wildcards_are_names :
    RenamesSubtree plainPaths wildcardRows
        (wildcardRows.rename .plain "50%" "half" "half" "") (pathRow "50%" true) "half" "half" "" ∧
      TombstonesSubtree plainPaths wildcardRows (wildcardRows.setPending .plain "50%" false true)
        (pathRow "50%" true) false := by
  have hiff := @directory_operations_iff .plain plainPaths Strings.plain_characters wildcardRows
    "50%" (pathRow "50%" true) (by decide) rfl "half" "half" "" false
  refine ⟨hiff.1.mpr ?_, hiff.2.mpr ?_⟩
  · simp only [RenamesCleanly, Items.plain_under]
    decide
  · simp only [DeletesCleanly, Items.plain_under]
    decide

/-! ## Two directories that are spelled alike -/

/-- `Notes` and `notes` are two directories. -/
def alikeRows : Items where
  rows := [pathRow "Notes" true, pathRow "Notes/a" false, pathRow "notes" true,
    pathRow "notes/b" false]
  key := by decide

theorem other_directory_is_renamed :
    ¬RenamesSubtree plainPaths alikeRows
        (alikeRows.rename .plain "Notes" "Archive" "Archive" "") (pathRow "Notes" true)
        "Archive" "Archive" "" ∧
      (alikeRows.rename .plain "Notes" "Archive" "Archive" "").rows.map (·.localPath) =
        ["Archive", "Archive/a", "notes", "Archive/b"] := by
  have hfetch : alikeRows.fetch "Notes" = some (pathRow "Notes" true) := by decide
  constructor
  · have hiff := @renamesSubtree_iff .plain plainPaths alikeRows "Notes" (pathRow "Notes" true)
      hfetch rfl Strings.plain_characters "Archive" "Archive" ""
    rw [hiff]
    simp only [RenamesCleanly, Items.plain_under]
    decide
  · rw [Items.rename_rows hfetch rfl]
    simp only [Items.plain_under]
    decide

/-! ## Two spellings of a directory -/

/-- The accent of an `é` is put apart. -/
def apart (s : String) : String :=
  String.join (s.toList.map fun c => if c = '\u00e9' then "e\u0301" else String.singleton c)

theorem apart_append (s t : String) : apart (s ++ t) = apart s ++ apart t := by
  rw [apart, String.toList_append, List.map_append, String.join_append]
  rfl

theorem eq_empty_of_apart {s : String} (hempty : apart s = "") : s = "" := by
  rw [← String.toList_inj, apart, String.toList_join, List.flatMap_map] at hempty
  rw [← String.toList_inj]
  cases hlist : s.toList with
  | nil => rfl
  | cons c rest =>
      rw [hlist, List.flatMap_cons] at hempty
      have hhead := (List.append_eq_nil_iff.mp hempty).1
      split at hhead <;> simp at hhead

/-- Canonical equivalence, if `é` is the only letter that can be composed. -/
def Strings.accented : Strings :=
  { Strings.plain with equal := fun s t => apart s == apart t }

def accentedPaths : Reading .accented :=
  .swift (fun s => beq_self_eq_true (apart s)) (fun h => beq_iff_eq.mpr (beq_iff_eq.mp h).symm)
    (fun h h' => beq_iff_eq.mpr ((beq_iff_eq.mp h).trans (beq_iff_eq.mp h')))
    fun {s t} h => by
      have happend : apart (s ++ t) = apart s := beq_iff_eq.mp h
      rw [apart_append, String.append_eq_left_iff] at happend
      exact eq_empty_of_apart happend

/-- A directory, and below it a note whose row has the accent apart. -/
def accentedRows : Items where
  rows := [pathRow "\u00e9" true, pathRow "e\u0301/a" false]
  key := by decide

example : ¬RenamesSubtree accentedPaths accentedRows
    (accentedRows.rename .accented "\u00e9" "Archive" "Archive" "") (pathRow "\u00e9" true)
    "Archive" "Archive" "" := by
  have hfetch : accentedRows.fetch "\u00e9" = some (pathRow "\u00e9" true) := by decide
  have hiff := @renamesSubtree_iff .accented accentedPaths accentedRows "\u00e9"
    (pathRow "\u00e9" true) hfetch rfl Strings.plain_characters "Archive" "Archive" ""
  have hunder : Items.under .plain "\u00e9" "e\u0301/a" = false := by
    rw [Items.plain_under]
    decide
  rw [hiff]
  intro hclean
  have hmoves : ¬Strings.accented.equal "\u00e9" "Archive" = true := by decide
  have hrow := ((if_neg hmoves).mp hclean).1 (pathRow "e\u0301/a" false) (by decide) (by decide)
  have hbelow : accentedPaths.below "\u00e9" "e\u0301/a" = true := by decide
  have hfound : Items.under .plain "\u00e9" "e\u0301/a" = true := ((if_pos hbelow).mp hrow).1
  rw [hunder] at hfound
  cases hfound

end ObSink.Ios
