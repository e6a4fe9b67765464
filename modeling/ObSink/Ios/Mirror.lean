import Mathlib.Logic.Function.Basic
import ObSink.Ios.Items

/-! # The item store after a sync

When a sync is complete, `SyncModel.apply` runs `reconcile` and then
`drainPendingAfterSync`, so that the item store mirrors the vault folder. This
module has the scan of the folder, the operations of the File Provider
extension (`ios/FileProvider/FileProviderExtension.swift`, its writes to the
store), and says from which tables the two steps end in a mirror.
-/

namespace ObSink.Ios

/-! ## The folder -/

/-- `URLResourceValues`; the date in whole seconds. -/
structure ResourceValues where
  isDirectory : Option Bool
  fileSize : Option Int
  contentModificationDate : Option Int
  deriving DecidableEq, Repr

/-- What the enumerator comes across: a path below the root, and what can be
read about it. -/
structure DiskEntry where
  path : String
  values : Option ResourceValues
  deriving DecidableEq, Repr

/-- A tree under the vault root, as the enumerator lists it: every path once,
a directory before what is in it. -/
structure Disk where
  root : String
  entries : List DiskEntry
  named : ∀ e ∈ entries, e.path ≠ ""
  nodup : (entries.map (·.path)).Nodup
  parents : ∀ e ∈ entries, ∀ q, parentPath e.path = some q →
    ∃ d, d.path = q ∧ [d, e].Sublist entries

/-- `replacingOccurrences(of: pattern, with: "")`; the number counts the
characters of an occurrence that are still to be skipped. -/
def removing (pattern : List Char) : Nat → List Char → List Char
  | _, [] => []
  | skip + 1, _ :: rest => removing pattern skip rest
  | 0, c :: rest =>
      if pattern.isPrefixOf (c :: rest) then removing pattern (pattern.length - 1) rest
      else c :: removing pattern 0 rest

/-- `(path as NSString).lastPathComponent` -/
def lastPathComponent (path : String) : String :=
  String.ofList (path.toList.reverse.takeWhile (· ≠ '/')).reverse

/-- The app's own folder. -/
def isObsink (path : String) : Bool :=
  path = ".obsink" || ".obsink/".toList.isPrefixOf path.toList

namespace Disk

/-- The root, with the slash that ends it. -/
def urlStart (disk : Disk) : List Char := (disk.root ++ "/").toList

/-- The row data of an entry that goes by the path `rel`. -/
def scanned (now : Int) (rel : String) (e : DiskEntry) : ScannedEntry where
  path := rel
  filename := lastPathComponent rel
  isDirectory := (e.values.bind (·.isDirectory)).getD false
  size := e.values.bind (·.fileSize)
  modified := (e.values.bind (·.contentModificationDate)).getD now

def scan (disk : Disk) (now : Int) : List ScannedEntry :=
  disk.entries.filterMap fun e =>
    let rel := String.ofList (removing disk.urlStart 0 (disk.urlStart ++ e.path.toList))
    if rel = "" ∨ isObsink rel then none else some (scanned now rel e)

/-- The paths on disk outside `.obsink`. -/
def paths (disk : Disk) : List String :=
  (disk.entries.map (·.path)).filter (fun p => !isObsink p)

/-- No path below the root repeats the whole path of the root. -/
def Plain (disk : Disk) : Prop :=
  ∀ e ∈ disk.entries, ¬disk.urlStart <:+: e.path.toList

end Disk

/-- `SyncModel.apply` on a completed sync. An error of `reconcile` is ignored. -/
def Items.apply (items : Items) (env : Surroundings) (disk : Disk) (now : Int) : Items :=
  ((items.reconcile env (disk.scan now)).getD items).drainPendingAfterSync true

/-! ## The extension -/

namespace Items

/-- `parentPath(forIdentifier:)`; `none` is the root container. -/
def pathOf (items : Items) (parent : Option String) : String :=
  ((parent.bind items.item).map (·.localPath)).getD ""

def childPath (parentPath filename : String) : String :=
  if parentPath = "" then filename else parentPath ++ "/" ++ filename

/-- `createItem`, once the file is written. -/
def createItem (items : Items) (uuid : String) (parent : Option String) (filename : String)
    (isFolder : Bool) (size : Option Int) (modified : Int) : Items :=
  items.insert
    { identifier := uuid
      parentIdentifier := parent.getD ""
      filename := filename
      contentHash := none
      localPath := childPath (items.pathOf parent) filename
      isDirectory := isFolder
      size := if isFolder then none else size
      modified := modified
      pendingUpload := true }

/-- `modifyItem`: new contents (their size and date), a new name, a new parent.
`moved` is false when the file cannot be moved, which ends the call. -/
def modifyItem (strings : Strings) (items : Items) (identifier : String)
    (contents : Option (Option Int × Int)) (filename : Option String)
    (parent : Option (Option String)) (moved : Bool) : Items :=
  match items.item identifier with
  | none => items
  | some rec =>
      let items := match contents with
        | none => items
        | some (size, modified) => items.updateContent identifier size modified
      let newFilename := filename.getD rec.filename
      let newParentID := (parent.map (·.getD "")).getD rec.parentIdentifier
      let newLocalPath := childPath (items.pathOf (parent.getD (some rec.parentIdentifier)))
        newFilename
      if (filename.isSome || parent.isSome) && !strings.equal newLocalPath rec.localPath then
        if moved then
          (items.rename strings identifier newLocalPath newFilename newParentID).setPending strings
            identifier true false
        else items
      else items.setPending strings identifier true false

/-- `deleteItem` -/
def deleteItem (strings : Strings) (items : Items) (identifier : String) : Items :=
  match items.item identifier with
  | none => items
  | some rec => items.setPending strings rec.identifier false true

/-- The tables the extension and the app make. A sync that stops at conflicts
only reconciles. -/
inductive Reached (env : Surroundings) : Items → Prop where
  | empty : Reached env Items.empty
  | createItem {items : Items} (uuid : String) (parent : Option String) (filename : String)
      (isFolder : Bool) (size : Option Int) (modified : Int) : Reached env items →
      Reached env (items.createItem uuid parent filename isFolder size modified)
  | modifyItem {items : Items} (identifier : String) (contents : Option (Option Int × Int))
      (filename : Option String) (parent : Option (Option String)) (moved : Bool) :
      Reached env items →
      Reached env (items.modifyItem env.toStrings identifier contents filename parent moved)
  | deleteItem {items : Items} (identifier : String) : Reached env items →
      Reached env (items.deleteItem env.toStrings identifier)
  | reconcile {items : Items} (disk : Disk) (now : Int) : Reached env items →
      Reached env ((items.reconcile env (disk.scan now)).getD items)
  | apply {items : Items} (disk : Disk) (now : Int) : Reached env items →
      Reached env (items.apply env disk now)

/-! ## Mirrors -/

/-- A live row at a path. -/
def LiveAt (items : Items) (path : String) (r : ItemRecord) : Prop :=
  r ∈ items.rows ∧ r.isDeleted = false ∧ r.localPath = path

/-- Every path has exactly one live row, which names its parent directory's
row, and live rows are at these paths only. -/
structure Mirrors (paths : List String) (items : Items) : Prop where
  row : ∀ p ∈ paths, ∃ r, items.LiveAt p r ∧ ∀ r', items.LiveAt p r' → r' = r
  parent : ∀ p ∈ paths, ∀ r, items.LiveAt p r →
    match parentPath p with
    | none => r.parentIdentifier = ""
    | some q => ∃ d, items.LiveAt q d ∧ r.parentIdentifier = d.identifier
  onDisk : ∀ p r, items.LiveAt p r → p ∈ paths

/-- The row reconcile updates at a path is marked for deletion, so the drain
that follows deletes it. -/
def Doomed (items : Items) (path : String) : Prop :=
  ∃ r, items.existing path = some r ∧ r.pendingDeletion = true

/-- A live row, not marked for deletion, that reconcile leaves alone: it is not
the one updated at its path, or its path is gone and its upload is pending. -/
def Spare (items : Items) (paths : List String) (r : ItemRecord) : Prop :=
  r ∈ items.rows ∧ r.isDeleted = false ∧ r.pendingDeletion = false ∧
    (items.existing r.localPath ≠ some r ∨ r.localPath ∉ paths ∧ r.pendingUpload = true)

/-- The tables from which reconcile and drain end in a mirror of the paths. -/
structure Settles (paths : List String) (items : Items) : Prop where
  /-- A path has no spare row, or exactly one that stands in for a doomed one. -/
  single : ∀ p ∈ paths,
    (¬items.Doomed p ∧ ∀ r, items.Spare paths r → r.localPath ≠ p) ∨
    (items.Doomed p ∧ ∃ r, items.Spare paths r ∧ r.localPath = p ∧
      ∀ r', items.Spare paths r' → r'.localPath = p → r' = r)
  /-- The rows of a directory's contents do not name a doomed row, and a spare
  row names the row its parent keeps. -/
  parent : ∀ p ∈ paths,
    match parentPath p with
    | none => ∀ r, items.Spare paths r → r.localPath = p → r.parentIdentifier = ""
    | some q =>
        (¬items.Doomed p → ¬items.Doomed q) ∧
        ∀ r, items.Spare paths r → r.localPath = p → ∃ d,
          r.parentIdentifier = d.identifier ∧
          (items.Spare paths d ∧ d.localPath = q ∨
            items.existing q = some d ∧ d.pendingDeletion = false)
  gone : ∀ r, items.Spare paths r → r.localPath ∈ paths

end Items

/-- What is known of characters and minted identifiers: a string has at least
as many characters as one it starts with, and a UUID is never in use. -/
structure Surroundings.Sane (env : Surroundings) (items : Items) : Prop where
  count_append : ∀ s t, Items.count env.characters s ≤ Items.count env.characters (s ++ t)
  fresh : ∀ n, ∀ r ∈ items.rows, env.mint n ≠ r.identifier ∧ env.mint n ≠ r.parentIdentifier
  injective : Function.Injective env.mint

/-! ## The scan -/

theorem removing_skip (pattern : List Char) (skip : Nat) (l : List Char) :
    removing pattern skip l = removing pattern 0 (l.drop skip) := by
  induction l generalizing skip with
  | nil => simp [removing]
  | cons c rest ih =>
      cases skip with
      | zero => rfl
      | succ skip => exact ih skip

/-- The start of a URL goes. -/
theorem removing_append {pattern : List Char} (hpattern : pattern ≠ []) (l : List Char) :
    removing pattern 0 (pattern ++ l) = removing pattern 0 l := by
  obtain ⟨c, rest, rfl⟩ := List.exists_cons_of_ne_nil hpattern
  rw [List.cons_append, removing, if_pos (by simp), removing_skip]
  simp

theorem removing_eq_self {pattern l : List Char} (h : ¬pattern <:+: l) :
    removing pattern 0 l = l := by
  induction l with
  | nil => rfl
  | cons c rest ih =>
      have hstart : ¬pattern.isPrefixOf (c :: rest) = true := by
        rw [List.isPrefixOf_iff_prefix]
        exact fun hp => h hp.isInfix
      have hrest : ¬pattern <:+: rest :=
        fun hsegment => h (hsegment.trans (List.suffix_cons c rest).isInfix)
      rw [removing, if_neg hstart, ih hrest]

/-- What comes after the parent's path starts with a slash. -/
theorem parentPath_eq_some {path parent : String} (h : parentPath path = some parent) :
    ∃ name, path = parent ++ String.ofList ('/' :: name) := by
  unfold parentPath at h
  dsimp only at h
  split at h
  next => cases h
  next hne =>
    have hparent := Option.some.inj h
    have hsplit := List.takeWhile_append_dropWhile (p := (· ≠ '/')) (l := path.toList.reverse)
    cases hdrop : path.toList.reverse.dropWhile (· ≠ '/') with
    | nil =>
        rw [hdrop] at hne
        exact absurd rfl hne
    | cons c rest =>
        have hc : c = '/' := by
          have := List.head?_dropWhile_not (fun x : Char => decide (x ≠ '/')) path.toList.reverse
          rw [hdrop] at this
          simpa using this
        rw [hdrop, hc] at hsplit
        rw [hdrop] at hparent
        refine ⟨(path.toList.reverse.takeWhile (· ≠ '/')).reverse, ?_⟩
        apply String.toList_injective
        have hrev := congrArg List.reverse hsplit
        rw [List.reverse_reverse] at hrev
        rw [← hparent]
        simpa using hrev.symm

theorem isObsink_of_parent {path parent : String} (h : parentPath path = some parent)
    (hobsink : isObsink parent = true) : isObsink path = true := by
  obtain ⟨name, rfl⟩ := parentPath_eq_some h
  simp only [isObsink, Bool.or_eq_true, decide_eq_true_eq, List.isPrefixOf_iff_prefix] at *
  right
  rw [String.toList_append]
  cases hobsink with
  | inl heq =>
      subst heq
      exact ⟨name, by simp⟩
  | inr hstart => exact hstart.trans (List.prefix_append _ _)

namespace Disk

theorem scan_eq {disk : Disk} (hplain : disk.Plain) (now : Int) :
    disk.scan now =
      (disk.entries.filter (fun e => !isObsink e.path)).map (fun e => scanned now e.path e) := by
  have hrel : ∀ e ∈ disk.entries,
      String.ofList (removing disk.urlStart 0 (disk.urlStart ++ e.path.toList)) = e.path := by
    intro e he
    rw [removing_append (by simp [urlStart]), removing_eq_self (hplain e he), String.ofList_toList]
  unfold scan
  rw [← List.filterMap_eq_map, List.filterMap_filter]
  apply List.filterMap_congr
  intro e he
  dsimp only
  rw [hrel e he]
  cases hobsink : isObsink e.path <;> simp [disk.named e he]

theorem scan_paths {disk : Disk} (hplain : disk.Plain) (now : Int) :
    (disk.scan now).map (·.path) = disk.paths := by
  rw [scan_eq hplain, paths, List.filter_map, List.map_map]
  rfl

theorem parent_mem (disk : Disk) {p q : String} (hp : p ∈ disk.paths) (hq : parentPath p = some q) :
    q ∈ disk.paths := by
  obtain ⟨hmem, hvisible⟩ := List.mem_filter.mp hp
  obtain ⟨e, he, rfl⟩ := List.mem_map.mp hmem
  obtain ⟨d, hd, hsub⟩ := disk.parents e he q hq
  refine List.mem_filter.mpr ⟨hd ▸ List.mem_map_of_mem (hsub.subset (by simp)), ?_⟩
  cases hobsink : isObsink q with
  | false => rfl
  | true =>
      rw [isObsink_of_parent hq hobsink] at hvisible
      cases hvisible

theorem paths_nodup (disk : Disk) : disk.paths.Nodup := disk.nodup.filter _

/-- The scan lists a directory before what is in it. -/
theorem scan_parents {disk : Disk} (hplain : disk.Plain) (now : Int) :
    ∀ e ∈ disk.scan now, ∀ q, parentPath e.path = some q →
      ∃ d, d.path = q ∧ [d, e].Sublist (disk.scan now) := by
  rw [scan_eq hplain]
  intro scannedEntry hscanned q hq
  obtain ⟨e, hmem, rfl⟩ := List.mem_map.mp hscanned
  obtain ⟨he, hvisible⟩ := List.mem_filter.mp hmem
  obtain ⟨d, hd, hsub⟩ := disk.parents e he q hq
  have hshown : isObsink d.path = false := by
    cases hobsink : isObsink d.path with
    | false => rfl
    | true =>
        rw [isObsink_of_parent (hd ▸ hq) hobsink] at hvisible
        cases hvisible
  refine ⟨scanned now d.path d, hd, ?_⟩
  have hfiltered := (hsub.filter (fun e => !isObsink e.path)).map (fun e => scanned now e.path e)
  simpa [hshown, hvisible] using hfiltered

end Disk

/-! ## One pass over the entries -/

namespace Items

theorem existing_mem {items : Items} {path : String} {c : ItemRecord}
    (h : items.existing path = some c) : c ∈ items.rows ∧ c.localPath = path := by
  have hfold : ∀ (l : List ItemRecord) (start : Option ItemRecord),
      l.foldl (fun chosen r => match chosen with
        | none => some r
        | some a => some (if a.isDeleted then r else a)) start = some c →
        c ∈ l ∨ start = some c := by
    intro l
    induction l with
    | nil => exact fun start h => Or.inr h
    | cons r rest ih =>
        intro start h
        cases ih _ h with
        | inl hrest => exact Or.inl (List.mem_cons_of_mem _ hrest)
        | inr hstart =>
            cases start with
            | none =>
                have heq := Option.some.inj hstart
                exact Or.inl (heq ▸ List.mem_cons_self)
            | some a =>
                have heq := Option.some.inj hstart
                split at heq
                next => exact Or.inl (heq ▸ List.mem_cons_self)
                next => exact Or.inr (congrArg some heq)
  have hmem := (hfold _ none h).resolve_right (by simp)
  simpa using hmem

theorem existing_swept {items : Items} {path : String} {c : ItemRecord}
    (h : items.existing path = some c) : c ∈ items.swept.rows := by
  obtain ⟨hmem, hpath⟩ := existing_mem h
  rw [swept, mem_delete]
  refine ⟨hmem, ?_⟩
  simp [stale, hpath, h]

theorem live_swept {items : Items} {r : ItemRecord} (hlive : r.isDeleted = false) :
    r ∈ items.swept.rows ↔ r ∈ items.rows := by
  rw [swept, mem_delete]
  simp [stale, hlive]

end Items

/-- The identifier of a path's parent, given the rows of the paths. -/
def parentId (row : String → ItemRecord) (path : String) : String :=
  ((parentPath path).map fun q => (row q).identifier).getD ""

section Pass

variable (env : Surroundings) (items : Items)

/-- The row an entry ends up with; `row` gives the rows of the paths before it. -/
structure Fits (row : String → ItemRecord) (minted : Nat) (path : String) (r : ItemRecord) :
    Prop where
  localPath : r.localPath = path
  live : r.isDeleted = false
  parent : r.parentIdentifier = parentId row path
  kept : ∀ c, items.existing path = some c →
    r.identifier = c.identifier ∧ r.pendingDeletion = c.pendingDeletion
  minted : items.existing path = none →
    r.pendingDeletion = false ∧ ∃ n < minted, r.identifier = env.mint n

/-- What a pass has done after some entries: it has their rows, and the rest of
the swept table. -/
structure Progress (done : List String) (row : String → ItemRecord) (pass : Pass) : Prop where
  named : ∀ p ∈ done, pass.pathToUUID.lookup p = some (row p).identifier
  fits : ∀ p ∈ done, Fits env items row pass.minted p (row p)
  closed : ∀ p ∈ done, ∀ q, parentPath p = some q → q ∈ done
  rows : ∀ r, r ∈ pass.items.rows ↔
    (∃ p ∈ done, r = row p) ∨ r ∈ items.swept.rows ∧ ∀ p ∈ done, items.existing p ≠ some r

end Pass

variable {env : Surroundings} {items : Items}

/-- The rows of two paths have different identifiers. -/
theorem Fits.identifier_ne (hsane : env.Sane items) {row : String → ItemRecord}
    {minted : Nat} {p p' : String} {r c : ItemRecord}
    (h : Fits env items row minted p r) (hc : items.existing p' = some c) (hp : p ≠ p') :
    r.identifier ≠ c.identifier := by
  have hmem := Items.existing_mem hc
  cases hexisting : items.existing p with
  | some c' =>
      rw [(h.kept c' hexisting).1]
      intro heq
      have hmem' := Items.existing_mem hexisting
      have hrows := items.eq_of_identifier hmem'.1 hmem.1 heq
      apply hp
      rw [← hmem'.2, ← hmem.2, hrows]
  | none =>
      obtain ⟨-, n, -, hid⟩ := h.minted hexisting
      rw [hid]
      exact (hsane.fresh n c hmem.1).1

/-- The row of a path that had one. -/
theorem Fits.of_existing {row : String → ItemRecord} {minted : Nat} {p : String} {c r : ItemRecord}
    (hc : items.existing p = some c) (hpath : r.localPath = p) (hlive : r.isDeleted = false)
    (hparent : r.parentIdentifier = parentId row p)
    (hid : r.identifier = c.identifier) (hpending : r.pendingDeletion = c.pendingDeletion) :
    Fits env items row minted p r where
  localPath := hpath
  live := hlive
  parent := hparent
  kept := by
    intro c' hc'
    rw [hc, Option.some_inj] at hc'
    subst hc'
    exact ⟨hid, hpending⟩
  minted := by
    intro hnone
    rw [hc] at hnone
    cases hnone

/-- A path keeps its row when another path gets one. -/
theorem Fits.update {row : String → ItemRecord} {minted minted' : Nat} {p p' : String}
    {r r' : ItemRecord} (h : Fits env items row minted p r) (hle : minted ≤ minted')
    (hparent : parentPath p ≠ some p') :
    Fits env items (Function.update row p' r') minted' p r where
  localPath := h.localPath
  live := h.live
  parent := by
    rw [h.parent, parentId, parentId]
    cases hq : parentPath p with
    | none => rfl
    | some q =>
        have hne : q ≠ p' := by
          rintro rfl
          exact hparent hq
        simp [Function.update_of_ne hne]
  kept := h.kept
  minted := by
    intro hnone
    obtain ⟨hpending, n, hn, hid⟩ := h.minted hnone
    exact ⟨hpending, n, Nat.lt_of_lt_of_le hn hle, hid⟩

namespace Progress

/-- One more row `r'`, for the path `p`, which takes the place of the row with
its identifier if there is one. -/
theorem add {done : List String} {row : String → ItemRecord} {pass pass' : Pass}
    (h : Progress env items done row pass) {p : String} (hp : p ∉ done) (r' : ItemRecord)
    (hself : parentPath p ≠ some p) (hclosed : ∀ q, parentPath p = some q → q ∈ done)
    (hminted : pass.minted ≤ pass'.minted) (hfits : Fits env items row pass'.minted p r')
    (hnamed : pass'.pathToUUID = (p, r'.identifier) :: pass.pathToUUID)
    (hmem : ∀ r, r ∈ pass'.items.rows ↔
      r ∈ pass.items.rows ∧ r.identifier ≠ r'.identifier ∨ r = r')
    (hother : ∀ q ∈ done, (row q).identifier ≠ r'.identifier)
    (hchosen : ∀ r ∈ items.swept.rows, r.identifier ≠ r'.identifier ↔ items.existing p ≠ some r) :
    Progress env items (p :: done) (Function.update row p r') pass' := by
  have hne : ∀ q ∈ done, q ≠ p := by
    rintro q hq rfl
    exact hp hq
  have hrow : ∀ q ∈ done, Function.update row p r' q = row q :=
    fun q hq => Function.update_of_ne (hne q hq) _ _
  constructor
  · intro q hq
    rw [hnamed]
    cases List.mem_cons.mp hq with
    | inl heq =>
        subst heq
        simp
    | inr hdone =>
        have hbeq : (q == p) = false := by simpa using hne q hdone
        rw [hrow q hdone, List.lookup_cons, hbeq]
        exact h.named q hdone
  · intro q hq
    cases List.mem_cons.mp hq with
    | inl heq =>
        subst heq
        rw [Function.update_self]
        exact hfits.update (Nat.le_refl _) hself
    | inr hdone =>
        rw [hrow q hdone]
        -- the parents of the paths done are done, so the new path is none of theirs
        apply (h.fits q hdone).update hminted
        intro hparent
        exact hp (h.closed q hdone p hparent)
  · intro q hq parent hparent
    cases List.mem_cons.mp hq with
    | inl heq => exact List.mem_cons_of_mem _ (hclosed parent (heq ▸ hparent))
    | inr hdone => exact List.mem_cons_of_mem _ (h.closed q hdone parent hparent)
  · intro r
    rw [hmem, h.rows]
    constructor
    · -- a swept row that is kept is not the one the new row replaces
      rintro (⟨⟨q, hq, rfl⟩ | ⟨hswept, hnot⟩, hid⟩ | rfl)
      · exact Or.inl ⟨q, List.mem_cons_of_mem _ hq, (hrow q hq).symm⟩
      · refine Or.inr ⟨hswept, ?_⟩
        intro q hq
        cases List.mem_cons.mp hq with
        | inl heq => exact heq ▸ (hchosen r hswept).mp hid
        | inr hdone => exact hnot q hdone
      · exact Or.inl ⟨p, List.mem_cons_self, by rw [Function.update_self]⟩
    · rintro (⟨q, hq, rfl⟩ | ⟨hswept, hnot⟩)
      · cases List.mem_cons.mp hq with
        | inl heq =>
            subst heq
            exact Or.inr (Function.update_self ..)
        | inr hdone =>
            rw [hrow q hdone]
            exact Or.inl ⟨Or.inl ⟨q, hdone, rfl⟩, hother q hdone⟩
      · left
        refine ⟨Or.inr ⟨hswept, fun q hq => hnot q (List.mem_cons_of_mem _ hq)⟩, ?_⟩
        exact (hchosen r hswept).mpr (hnot p List.mem_cons_self)

/-- The parent that `reconcile` finds for an entry. -/
theorem parent_found {done : List String} {row : String → ItemRecord} {pass : Pass}
    (h : Progress env items done row pass) {p : String}
    (hclosed : ∀ q, parentPath p = some q → q ∈ done) :
    ((parentPath p).bind (pass.pathToUUID.lookup ·)).getD "" = parentId row p := by
  unfold parentId
  cases hq : parentPath p with
  | none => rfl
  | some q => simp [h.named q (hclosed q hq)]

theorem upsertEntry {done : List String} {row : String → ItemRecord} {pass : Pass}
    (hsane : env.Sane items) (h : Progress env items done row pass) {entry : ScannedEntry}
    (hp : entry.path ∉ done) (hself : parentPath entry.path ≠ some entry.path)
    (hclosed : ∀ q, parentPath entry.path = some q → q ∈ done) :
    ∃ pass' row', pass.upsertEntry env.mint items.existing entry = some pass' ∧
      Progress env items (entry.path :: done) row' pass' := by
  unfold Pass.upsertEntry
  dsimp only
  rw [h.parent_found hclosed]
  have hother : ∀ c, items.existing entry.path = some c → ∀ q ∈ done,
      (row q).identifier ≠ c.identifier := by
    intro c hc q hq
    apply (h.fits q hq).identifier_ne hsane hc
    rintro rfl
    exact hp hq
  have hchosen : ∀ c, items.existing entry.path = some c → ∀ r ∈ items.swept.rows,
      r.identifier ≠ c.identifier ↔ items.existing entry.path ≠ some r := by
    intro c hc r hr
    rw [hc, not_iff_not, Option.some_inj]
    constructor
    · intro hid
      exact (items.swept.eq_of_identifier hr (Items.existing_swept hc) hid).symm
    · intro heq
      rw [heq]
  cases hexisting : items.existing entry.path with
  | some c =>
      have hc := Items.existing_mem hexisting
      dsimp only
      split
      next =>
        refine ⟨_, _, rfl,
          h.add hp (entry.onto c (parentId row entry.path) pass.nextVersion) hself hclosed
            (Nat.le_refl _) ?_ rfl ?_ (hother c hexisting) (hchosen c hexisting)⟩
        · exact Fits.of_existing hexisting hc.2 rfl rfl rfl rfl
        · intro r
          exact Items.mem_insertOrReplace
      next hsame =>
        -- Nothing changed: the row that was there is the row of the entry.
        simp only [ScannedEntry.changed, Bool.or_eq_true, bne_iff_ne, not_or, ne_eq, not_not,
          Bool.not_eq_true] at hsame
        refine ⟨_, _, rfl, h.add hp c hself hclosed (Nat.le_refl _) ?_ rfl ?_
          (hother c hexisting) (hchosen c hexisting)⟩
        · exact Fits.of_existing hexisting hc.2 hsame.1 hsame.2.1.2 rfl rfl
        · have hmem : c ∈ pass.items.rows := by
            rw [h.rows]
            refine Or.inr ⟨Items.existing_swept hexisting, ?_⟩
            intro q hq heq
            have hpath := (Items.existing_mem heq).2
            rw [hc.2] at hpath
            exact hp (hpath ▸ hq)
          intro r
          constructor
          · intro hr
            by_cases hid : r.identifier = c.identifier
            · exact Or.inr (pass.items.eq_of_identifier hr hmem hid)
            · exact Or.inl ⟨hr, hid⟩
          · rintro (⟨hr, -⟩ | rfl)
            · exact hr
            · exact hmem
  | none =>
      dsimp only
      have hunused : ∀ r ∈ pass.items.rows, r.identifier ≠ env.mint pass.minted := by
        intro r hr
        rw [h.rows] at hr
        obtain ⟨q, hq, rfl⟩ | ⟨hswept, -⟩ := hr
        · cases hq' : items.existing q with
          | some c =>
              rw [((h.fits q hq).kept c hq').1]
              exact (hsane.fresh _ c (Items.existing_mem hq').1).1.symm
          | none =>
              obtain ⟨-, n, hn, hid⟩ := (h.fits q hq).minted hq'
              rw [hid]
              intro heq
              have := hsane.injective heq
              omega
        · exact (hsane.fresh _ r (Items.mem_delete.mp hswept).1).1.symm
      rw [Items.insertNew, if_neg (by
        rintro ⟨r, hr, hid⟩
        exact hunused r hr hid)]
      refine ⟨_, _, rfl, h.add hp _ hself hclosed (Nat.le_succ _) ?_ rfl
        (fun r => Items.mem_insertOrReplace) ?_ ?_⟩
      · refine ⟨rfl, rfl, rfl, ?_, ?_⟩
        · intro c hc
          rw [hexisting] at hc
          cases hc
        · intro _
          exact ⟨rfl, pass.minted, Nat.lt_succ_self _, rfl⟩
      · intro q hq
        exact hunused _ ((h.rows _).mpr (Or.inl ⟨q, hq, rfl⟩))
      · intro r hr
        simp only [hexisting, ne_eq, reduceCtorEq, not_false_eq_true, iff_true]
        exact (hsane.fresh _ r (Items.mem_delete.mp hr).1).1.symm

end Progress

/-- Every path comes once, and after its parent. -/
def Ordered (done : List String) : List ScannedEntry → Prop
  | [] => True
  | entry :: rest =>
      entry.path ∉ done ∧ (∀ q, parentPath entry.path = some q → q ∈ done) ∧
        Ordered (entry.path :: done) rest

theorem Ordered.of_sublist {entries : List ScannedEntry} {done : List String}
    (hnodup : (entries.map (·.path)).Nodup) (hdone : ∀ e ∈ entries, e.path ∉ done)
    (hparents : ∀ e ∈ entries, ∀ q, parentPath e.path = some q →
      q ∈ done ∨ ∃ d : ScannedEntry, d.path = q ∧ [d, e].Sublist entries) :
    Ordered done entries := by
  induction entries generalizing done with
  | nil => trivial
  | cons entry rest ih =>
      rw [List.map_cons, List.nodup_cons] at hnodup
      refine ⟨hdone entry List.mem_cons_self, ?_, ih hnodup.2 ?_ ?_⟩
      · intro q hq
        cases hparents entry List.mem_cons_self q hq with
        | inl hin => exact hin
        | inr hbefore =>
            obtain ⟨d, -, hsub⟩ := hbefore
            -- The entry would come again after its parent.
            have hagain : entry ∈ rest := by
              cases hsub with
              | cons _ hsub => exact hsub.subset (by simp)
              | cons_cons _ hsub => exact hsub.subset (by simp)
            exact absurd (List.mem_map_of_mem hagain) hnodup.1
      · intro e he hmem
        cases List.mem_cons.mp hmem with
        | inl heq => exact hnodup.1 (heq ▸ List.mem_map_of_mem he)
        | inr hin => exact hdone e (List.mem_cons_of_mem _ he) hin
      · intro e he q hq
        cases hparents e (List.mem_cons_of_mem _ he) q hq with
        | inl hin => exact Or.inl (List.mem_cons_of_mem _ hin)
        | inr hbefore =>
            obtain ⟨d, hd, hsub⟩ := hbefore
            cases hsub with
            | cons _ hsub => exact Or.inr ⟨d, hd, hsub⟩
            | cons_cons _ _ => exact Or.inl (hd ▸ List.mem_cons_self)

theorem parentPath_ne_self (path : String) : parentPath path ≠ some path := by
  intro h
  obtain ⟨name, heq⟩ := parentPath_eq_some h
  have hlength := congrArg (fun s => s.toList.length) heq
  simp at hlength

/-- With fresh identifiers the pass does not fail. -/
theorem Progress.foldlM (hsane : env.Sane items) {entries : List ScannedEntry}
    {done : List String} {row : String → ItemRecord} {pass : Pass}
    (h : Progress env items done row pass) (hordered : Ordered done entries) :
    ∃ pass' row' done',
      entries.foldlM (Pass.upsertEntry env.mint items.existing) pass = some pass' ∧
      Progress env items done' row' pass' ∧
      ∀ p, p ∈ done' ↔ p ∈ done ∨ p ∈ entries.map (·.path) := by
  induction entries generalizing done row pass with
  | nil => exact ⟨pass, row, done, rfl, h, by simp⟩
  | cons entry rest ih =>
      obtain ⟨hp, hclosed, hrest⟩ := hordered
      obtain ⟨middle, row', hstep, hmiddle⟩ :=
        h.upsertEntry hsane hp (parentPath_ne_self _) hclosed
      obtain ⟨pass', row'', done', hfold, hpass', hmem⟩ := ih hmiddle hrest
      refine ⟨pass', row'', done', ?_, hpass', ?_⟩
      · rw [List.foldlM_cons, hstep]
        exact hfold
      · intro p
        rw [hmem, List.map_cons, List.mem_cons, List.mem_cons]
        tauto

/-- The rows that are live after paths vanished. -/
theorem Items.mem_vanish (l : List ItemRecord) (items : Items) (next : Int) {r : ItemRecord}
    (hlive : r.isDeleted = false) :
    r ∈ (items.vanish next l).rows ↔ r ∈ items.rows ∧ ∀ v ∈ l, r.identifier ≠ v.identifier := by
  induction l generalizing items next with
  | nil => simp [Items.vanish]
  | cons v rest ih =>
      rw [Items.vanish, ih, Items.mem_insertOrReplace]
      have hne : ∀ version, r ≠ { v with isDeleted := true, rowVersion := version } := by
        intro version heq
        rw [heq] at hlive
        cases hlive
      simp only [hne, or_false, List.mem_cons, forall_eq_or_imp, and_assoc]

namespace Items

/-- `reconcile` on a plain tree. -/
theorem reconcile_progress (hsane : env.Sane items) {disk : Disk} (hplain : disk.Plain)
    (now : Int) :
    ∃ pass row done next, Progress env items done row pass ∧ (∀ p, p ∈ done ↔ p ∈ disk.paths) ∧
      items.reconcile env (disk.scan now) = some (pass.items.vanish next
        ((env.order items.existingRows).filter fun rec => !disk.paths.contains rec.localPath &&
          !rec.pendingUpload && !rec.pendingDeletion && !rec.isDeleted)) := by
  let le := fun a b : ScannedEntry =>
    decide (count env.characters a.path ≤ count env.characters b.path)
  have hperm : ((disk.scan now).mergeSort le).Perm (disk.scan now) := List.mergeSort_perm _ _
  have hpaths : (((disk.scan now).mergeSort le).map (·.path)).Perm disk.paths :=
    Disk.scan_paths hplain now ▸ hperm.map _
  have hordered : Ordered [] ((disk.scan now).mergeSort le) := by
    apply Ordered.of_sublist (hpaths.nodup_iff.mpr disk.paths_nodup)
    · intro e _ hmem
      cases hmem
    · intro e he q hq
      obtain ⟨d, hd, hsub⟩ := Disk.scan_parents hplain now e (hperm.mem_iff.mp he) q hq
      refine Or.inr ⟨d, hd, List.pair_sublist_mergeSort ?_ ?_ ?_ hsub⟩
      · intro a b c hab hbc
        simp only [le, decide_eq_true_eq] at *
        omega
      · intro a b
        simp only [le, Bool.or_eq_true, decide_eq_true_eq]
        omega
      · obtain ⟨name, hname⟩ := parentPath_eq_some hq
        simp only [le, decide_eq_true_eq, hname, hd]
        exact hsane.count_append q _
  have hstart : Progress env items [] (fun _ => default)
      { items := items.swept, nextVersion := items.swept.maxRowVersion + 1 } := by
    constructor <;> simp
  obtain ⟨pass, row, done, hfold, hpass, hmem⟩ := hstart.foldlM hsane hordered
  refine ⟨pass, row, done, pass.nextVersion, hpass, ?_, ?_⟩
  · intro p
    rw [hmem, hpaths.mem_iff]
    simp
  · unfold reconcile
    dsimp only
    rw [hfold, Option.map_some]
    congr 2
    apply List.filter_congr
    intro rec _
    congr 4
    rw [Bool.eq_iff_iff, List.contains_iff_mem, List.contains_iff_mem]
    exact hpaths.mem_iff

theorem mem_vanished {env : Surroundings} {items : Items} {paths : List String} {v : ItemRecord} :
    v ∈ (env.order items.existingRows).filter (fun rec => !paths.contains rec.localPath &&
        !rec.pendingUpload && !rec.pendingDeletion && !rec.isDeleted) ↔
      items.existing v.localPath = some v ∧ v.localPath ∉ paths ∧ v.pendingUpload = false ∧
        v.pendingDeletion = false ∧ v.isDeleted = false := by
  rw [List.mem_filter, (env.order_perm _).mem_iff, existingRows, List.mem_filter]
  simp only [decide_eq_true_eq, Bool.and_eq_true, Bool.not_eq_eq_eq_not, Bool.not_true,
    ← Bool.not_eq_true, List.contains_iff_mem, and_assoc]
  constructor
  · intro h
    exact h.2
  · intro h
    exact ⟨(existing_mem h.1).1, h⟩

theorem Doomed.iff_pendingDeletion {row : String → ItemRecord} {minted : Nat} {p : String}
    {r : ItemRecord} (h : Fits env items row minted p r) :
    items.Doomed p ↔ r.pendingDeletion = true := by
  unfold Doomed
  cases hexisting : items.existing p with
  | none => simp [(h.minted hexisting).1]
  | some c => simp [(h.kept c hexisting).2]

/-- The live rows at a path after `reconcile` and the drain: the one reconcile
updated, unless it is doomed, and the spare ones. -/
theorem liveAt_apply (hsane : env.Sane items) {disk : Disk} (hplain : disk.Plain) (now : Int) :
    ∃ row minted, (∀ p ∈ disk.paths, Fits env items row minted p (row p)) ∧
      ∀ p r', (items.apply env disk now).LiveAt p r' ↔
        ∃ r, { r with pendingUpload := false } = r' ∧ r.localPath = p ∧
          (p ∈ disk.paths ∧ r = row p ∧ ¬items.Doomed p ∨ items.Spare disk.paths r) := by
  obtain ⟨pass, row, done, next, hpass, hdone, hreconcile⟩ := reconcile_progress hsane hplain now
  refine ⟨row, pass.minted, fun p hp => hpass.fits p ((hdone p).mpr hp), ?_⟩
  intro p r'
  simp only [apply, hreconcile, Option.getD_some, drainPendingAfterSync, if_true,
    LiveAt, mem_delete, mem_uploadsDone]
  constructor
  · rintro ⟨⟨⟨r, hr, rfl⟩, hpending⟩, hlive, hpath⟩
    replace hlive : r.isDeleted = false := hlive
    replace hpending : r.pendingDeletion = false := hpending
    refine ⟨r, rfl, hpath, ?_⟩
    obtain ⟨hmem, hstays⟩ := (mem_vanish _ _ _ hlive).mp hr
    obtain ⟨q, hq, heq⟩ | ⟨hswept, hnot⟩ := (hpass.rows r).mp hmem
    · have hfits := hpass.fits q hq
      have hqp : q = p := by rw [← hpath, heq, hfits.localPath]
      subst hqp
      refine Or.inl ⟨(hdone q).mp hq, heq, ?_⟩
      rw [Doomed.iff_pendingDeletion hfits, ← heq]
      simpa using hpending
    · refine Or.inr ⟨(live_swept hlive).mp hswept, hlive, hpending, ?_⟩
      by_cases hchosen : items.existing r.localPath = some r
      · have hgone : r.localPath ∉ disk.paths :=
          fun hin => hnot _ ((hdone _).mpr hin) hchosen
        refine Or.inr ⟨hgone, ?_⟩
        cases hupload : r.pendingUpload with
        | true => rfl
        | false =>
            exact absurd rfl
              (hstays r (mem_vanished.mpr ⟨hchosen, hgone, hupload, hpending, hlive⟩))
      · exact Or.inl hchosen
  · rintro ⟨r, rfl, hpath, ⟨hp, heq, hdoomed⟩ | ⟨hmem, hlive, hpending, hspare⟩⟩
    · have hfits := hpass.fits p ((hdone p).mpr hp)
      rw [Doomed.iff_pendingDeletion hfits, ← heq] at hdoomed
      have hlive : r.isDeleted = false := heq ▸ hfits.live
      refine ⟨⟨⟨r, (mem_vanish _ _ _ hlive).mpr ⟨?_, ?_⟩, rfl⟩, by simpa using hdoomed⟩, hlive,
        hpath⟩
      · exact (hpass.rows r).mpr (Or.inl ⟨p, (hdone p).mpr hp, heq⟩)
      · intro v hv
        obtain ⟨hchosen, hgone, -⟩ := mem_vanished.mp hv
        rw [heq]
        apply hfits.identifier_ne hsane hchosen
        rintro rfl
        exact hgone hp
    · refine ⟨⟨⟨r, (mem_vanish _ _ _ hlive).mpr ⟨?_, ?_⟩, rfl⟩, hpending⟩, hlive, hpath⟩
      · refine (hpass.rows r).mpr (Or.inr ⟨(live_swept hlive).mpr hmem, ?_⟩)
        intro q hq hchosen
        have hq' := (existing_mem hchosen).2
        subst hq'
        exact hspare.elim (fun h => h hchosen) (fun h => h.1 ((hdone _).mp hq))
      · intro v hv hid
        obtain ⟨hchosen, hgone, hupload, -⟩ := mem_vanished.mp hv
        have heq := items.eq_of_identifier hmem (existing_mem hchosen).1 hid
        subst heq
        cases hspare with
        | inl h => exact h hchosen
        | inr h =>
            rw [hupload] at h
            cases h.2

theorem Settles.mirrors (hsane : env.Sane items) {disk : Disk} (hplain : disk.Plain) (now : Int)
    (h : items.Settles disk.paths) : (items.apply env disk now).Mirrors disk.paths := by
  obtain ⟨row, minted, hfits, hlive⟩ := liveAt_apply hsane hplain now
  constructor
  · intro p hp
    obtain ⟨hdoomed, hnone⟩ | ⟨hdoomed, r, hspare, hpath, honly⟩ := h.single p hp
    · refine ⟨{ row p with pendingUpload := false },
        (hlive _ _).mpr ⟨row p, rfl, (hfits p hp).localPath, Or.inl ⟨hp, rfl, hdoomed⟩⟩, ?_⟩
      intro r' hr'
      obtain ⟨r, rfl, hpath, ⟨-, heq, -⟩ | hspare⟩ := (hlive _ _).mp hr'
      · rw [heq]
      · exact absurd hpath (hnone r hspare)
    · refine ⟨{ r with pendingUpload := false },
        (hlive _ _).mpr ⟨r, rfl, hpath, Or.inr hspare⟩, ?_⟩
      intro r' hr'
      obtain ⟨other, rfl, hpath', ⟨-, -, hnot⟩ | hspare'⟩ := (hlive _ _).mp hr'
      · exact absurd hdoomed hnot
      · rw [honly other hspare' hpath']
  · intro p hp r' hr'
    have hparents := h.parent p hp
    obtain ⟨r, rfl, hpath, ⟨-, heq, hdoomed⟩ | hspare⟩ := (hlive _ _).mp hr'
    · have hparent := (hfits p hp).parent
      rw [← heq, parentId] at hparent
      cases hq : parentPath p with
      | none =>
          rw [hq] at hparent
          exact hparent
      | some q =>
          rw [hq] at hparent hparents
          have hq' := disk.parent_mem hp hq
          exact ⟨{ row q with pendingUpload := false }, (hlive _ _).mpr ⟨row q, rfl,
            (hfits q hq').localPath, Or.inl ⟨hq', rfl, hparents.1 hdoomed⟩⟩, hparent⟩
    · cases hq : parentPath p with
      | none =>
          rw [hq] at hparents
          exact hparents r hspare hpath
      | some q =>
          rw [hq] at hparents
          have hq' := disk.parent_mem hp hq
          obtain ⟨d, hid, ⟨hd, hdq⟩ | ⟨hexisting, hpending⟩⟩ := hparents.2 r hspare hpath
          · exact ⟨{ d with pendingUpload := false },
              (hlive _ _).mpr ⟨d, rfl, hdq, Or.inr hd⟩, hid⟩
          · have hdoomed : ¬items.Doomed q := by
              rintro ⟨c, hc, hc'⟩
              rw [hexisting, Option.some_inj] at hc
              rw [← hc, hpending] at hc'
              cases hc'
            refine ⟨{ row q with pendingUpload := false }, (hlive _ _).mpr ⟨row q, rfl,
              (hfits q hq').localPath, Or.inl ⟨hq', rfl, hdoomed⟩⟩, ?_⟩
            exact hid.trans ((hfits q hq').kept d hexisting).1.symm
  · intro p r' hr'
    obtain ⟨r, rfl, hpath, ⟨hp, -⟩ | hspare⟩ := (hlive _ _).mp hr'
    · exact hp
    · exact hpath ▸ h.gone r hspare

/-- A spare row and the row reconcile updates at its path are different rows. -/
theorem Spare.identifier_ne {paths : List String} {r c : ItemRecord} (h : items.Spare paths r)
    (hpath : r.localPath ∈ paths) (hc : items.existing r.localPath = some c) :
    r.identifier ≠ c.identifier := by
  intro hid
  have heq := items.eq_of_identifier h.1 (existing_mem hc).1 hid
  subst heq
  exact h.2.2.2.elim (fun hne => hne hc) (fun hgone => hgone.1 hpath)

theorem Mirrors.settles (hsane : env.Sane items) {disk : Disk} (hplain : disk.Plain) (now : Int)
    (h : (items.apply env disk now).Mirrors disk.paths) : items.Settles disk.paths := by
  obtain ⟨row, minted, hfits, hlive⟩ := liveAt_apply hsane hplain now
  have hspareLive : ∀ r, items.Spare disk.paths r →
      (items.apply env disk now).LiveAt r.localPath { r with pendingUpload := false } :=
    fun r hr => (hlive _ _).mpr ⟨r, rfl, rfl, Or.inr hr⟩
  have hrowLive : ∀ p ∈ disk.paths, ¬items.Doomed p →
      (items.apply env disk now).LiveAt p { row p with pendingUpload := false } :=
    fun p hp hdoomed =>
      (hlive _ _).mpr ⟨row p, rfl, (hfits p hp).localPath, Or.inl ⟨hp, rfl, hdoomed⟩⟩
  have hunique : ∀ p ∈ disk.paths, ∀ a b, (items.apply env disk now).LiveAt p a →
      (items.apply env disk now).LiveAt p b → a.identifier = b.identifier := by
    intro p hp a b ha hb
    obtain ⟨r, -, honly⟩ := h.row p hp
    rw [honly a ha, honly b hb]
  constructor
  · intro p hp
    -- a doomed path is live afterwards only through a spare row
    by_cases hdoomed : items.Doomed p
    · obtain ⟨r', hr', -⟩ := h.row p hp
      obtain ⟨r, -, hpath, ⟨-, -, hnot⟩ | hspare⟩ := (hlive _ _).mp hr'
      · exact absurd hdoomed hnot
      · refine Or.inr ⟨hdoomed, r, hspare, hpath, ?_⟩
        intro other hother hpath'
        have hliveOther := hspareLive other hother
        have hliveSpare := hspareLive r hspare
        rw [hpath'] at hliveOther
        rw [hpath] at hliveSpare
        have hid := hunique p hp _ _ hliveOther hliveSpare
        exact items.eq_of_identifier hother.1 hspare.1 hid
    · refine Or.inl ⟨hdoomed, ?_⟩
      rintro r hspare rfl
      have hid := hunique _ hp _ _ (hspareLive r hspare) (hrowLive _ hp hdoomed)
      change r.identifier = (row r.localPath).identifier at hid
      cases hexisting : items.existing r.localPath with
      | some c =>
          rw [((hfits _ hp).kept c hexisting).1] at hid
          exact hspare.identifier_ne hp hexisting hid
      | none =>
          obtain ⟨-, n, -, hminted⟩ := (hfits _ hp).minted hexisting
          rw [hminted] at hid
          exact (hsane.fresh n r hspare.1).1 hid.symm
  · intro p hp
    cases hq : parentPath p with
    | none =>
        rintro r hspare rfl
        have hparent := h.parent _ hp _ (hspareLive r hspare)
        rw [hq] at hparent
        exact hparent
    | some q =>
        have hq' := disk.parent_mem hp hq
        -- the parent of a path is live afterwards under the identifier its children hold
        constructor
        · rintro hdoomed ⟨c, hc, hpending⟩
          have hparent := h.parent p hp _ (hrowLive p hp hdoomed)
          rw [hq] at hparent
          obtain ⟨d', hd', hid⟩ := hparent
          obtain ⟨d, rfl, hdq, ⟨-, -, hnot⟩ | hspare⟩ := (hlive _ _).mp hd'
          · exact hnot ⟨c, hc, hpending⟩
          · have hparentId : (row p).parentIdentifier = c.identifier := by
              rw [(hfits p hp).parent, parentId, hq, Option.map_some, Option.getD_some,
                ((hfits q hq').kept c hc).1]
            subst hdq
            exact hspare.identifier_ne hq' hc (hid.symm.trans hparentId)
        · rintro r hspare rfl
          have hparent := h.parent _ hp _ (hspareLive r hspare)
          rw [hq] at hparent
          obtain ⟨d', hd', hid⟩ := hparent
          obtain ⟨d, rfl, hdq, ⟨-, heq, hdoomed⟩ | hd⟩ := (hlive _ _).mp hd'
          · cases hexisting : items.existing q with
            | some c =>
                refine ⟨c, ?_, Or.inr ⟨rfl, ?_⟩⟩
                · rw [← ((hfits q hq').kept c hexisting).1, ← heq]
                  exact hid
                · cases hpending : c.pendingDeletion with
                  | false => rfl
                  | true => exact absurd ⟨c, hexisting, hpending⟩ hdoomed
            | none =>
                obtain ⟨-, n, -, hminted⟩ := (hfits q hq').minted hexisting
                have hclash : env.mint n = r.parentIdentifier := by
                  rw [← hminted, ← heq]
                  exact hid.symm
                exact absurd hclash (hsane.fresh n r hspare.1).2
          · exact ⟨d, hid, Or.inl ⟨hd, hdq⟩⟩
  · intro r hspare
    exact h.onDisk _ _ (hspareLive r hspare)

end Items

/-- Reconcile and drain after a completed sync leave a mirror of the disk
exactly from the tables that settle. -/
theorem apply_mirrors_iff (env : Surroundings) (items : Items) (hsane : env.Sane items)
    (disk : Disk) (hplain : disk.Plain) (now : Int) :
    (items.apply env disk now).Mirrors disk.paths ↔ items.Settles disk.paths :=
  ⟨fun h => h.settles hsane hplain now, fun h => h.mirrors hsane hplain now⟩

/-- Characters as code points, and identifiers of growing length. -/
def codePoints : Surroundings where
  toStrings := .plain
  mint := fun n => String.ofList (List.replicate (n + 1) 'u')
  order := id
  order_perm := fun l => List.Perm.refl l

def oneNote : Disk where
  root := "/Vault"
  entries := [⟨"a.md", some ⟨some false, some 1, some 1⟩⟩]
  named := by decide
  nodup := by decide
  parents := by
    intro e he q hq
    have hnone : parentPath "a.md" = none := by decide
    rw [List.mem_singleton.mp he, hnone] at hq
    cases hq

theorem codePoints_sane (items : Items)
    (h : ∀ r ∈ items.rows, 'u' ∉ r.identifier.toList ∧ 'u' ∉ r.parentIdentifier.toList) :
    codePoints.Sane items where
  count_append := by
    intro s t
    simp [Items.count, codePoints, Strings.plain]
  fresh := by
    intro n r hr
    have hu : 'u' ∈ (codePoints.mint n).toList := by simp [codePoints]
    constructor
    · intro heq
      exact (h r hr).1 (heq ▸ hu)
    · intro heq
      exact (h r hr).2 (heq ▸ hu)
  injective := by
    intro m n h
    have hlength := congrArg (fun s => s.toList.length) h
    simpa [codePoints] using hlength

theorem oneNote_plain : oneNote.Plain := by
  unfold Disk.Plain
  decide

/-- The note was created by the extension and waits for its upload. -/
def created : Items := Items.empty.createItem "A" none "a.md" false (some 1) 1

theorem created_mirrors : (created.apply codePoints oneNote 0).Mirrors oneNote.paths := by
  apply (apply_mirrors_iff codePoints created (codePoints_sane created (by decide)) oneNote
    oneNote_plain 0).mpr
  have hnone : ∀ r, ¬created.Spare oneNote.paths r := by
    intro r hspare
    have hmem : r = created.rows.head (by decide) := List.mem_singleton.mp hspare.1
    subst hmem
    exact hspare.2.2.2.elim (fun h => h (by decide)) (fun h => h.1 (by decide))
  refine ⟨?_, ?_, fun r hr => absurd hr (hnone r)⟩
  · intro p hp
    have hp' : p = "a.md" := List.mem_singleton.mp hp
    subst hp'
    refine Or.inl ⟨?_, fun r hr => absurd hr (hnone r)⟩
    rintro ⟨r, hr, hpending⟩
    have heq : created.existing "a.md" = some (created.rows.head (by decide)) := by decide
    rw [heq, Option.some_inj] at hr
    subst hr
    exact absurd hpending (by decide)
  · intro p hp
    have hp' : p = "a.md" := List.mem_singleton.mp hp
    subst hp'
    exact fun r hr => absurd hr (hnone r)

/-- The note was deleted in the extension; the sync then brings another one to
its path. Reconcile revives the row with its mark, and the drain deletes it. -/
def deleted : Items := created.deleteItem codePoints.toStrings "A"

theorem deleted_row_lost : ¬∀ env items (disk : Disk) now, Surroundings.Sane env items →
    disk.Plain → Items.Reached env items → (items.apply env disk now).Mirrors disk.paths := by
  intro hclaim
  have hsane : codePoints.Sane deleted := codePoints_sane deleted (by decide)
  have hreached : Items.Reached codePoints deleted := .deleteItem _ (.createItem _ _ _ _ _ _ .empty)
  have hsettles := (hclaim codePoints deleted oneNote 0 hsane oneNote_plain hreached).settles hsane
    oneNote_plain 0
  obtain ⟨hdoomed, -⟩ | ⟨-, r, hspare, -⟩ := hsettles.single "a.md" (by decide)
  · exact hdoomed ⟨deleted.rows.head (by decide), by decide, by decide⟩
  · have hmem : r = deleted.rows.head (by decide) := List.mem_singleton.mp hspare.1
    have hlive := hspare.2.1
    rw [hmem] at hlive
    exact absurd hlive (by decide)

end ObSink.Ios
