import Mathlib.Data.List.Nodup
import Mathlib.Data.List.Perm.Basic
import Mathlib.Tactic.Common
import ObSink.Lib.Like

/-! # The item store of the iOS app

`ios/DB/ItemStore.swift` keeps one row per vault item in a SQLite table that
the app and the File Provider extension share. A table is the list of its rows
in `rowid` order, with distinct primary keys; each write of the store is one
transaction and is a function on tables here.

`rowVersion` is an integer that never gets near the end of `Int64`. A string is
the code points that are stored, and SQLite compares these. Swift compares up to
canonical equivalence: what it makes of a string is a parameter where an
operation leaves some of the work to SQLite. Reconcile compares paths and names
in Swift alone, so there a string stands for its normal form.
-/

namespace ObSink.Ios

/-- What Swift and Foundation make of strings: `==`, the division into
`Character`s, and `replacingOccurrences` with its target and the replacement. -/
structure Strings where
  equal : String → String → Bool
  characters : String → List String
  replacingOccurrences : String → String → String → String

/-- Strings whose code points stand alone, as in most of ASCII; the targets are
single ones too. -/
def Strings.plain : Strings where
  equal := (· == ·)
  characters := fun s => s.toList.map String.singleton
  replacingOccurrences := fun target replacement s =>
    String.join ((s.toList.map String.singleton).map fun c =>
      if c = target then replacement else c)

/-- `ItemRecord`; `parentIdentifier` is empty for items at the top level. -/
structure ItemRecord where
  identifier : String
  parentIdentifier : String
  filename : String
  contentHash : Option String
  localPath : String
  isDirectory : Bool
  size : Option Int
  modified : Int
  pendingUpload : Bool := false
  pendingDeletion : Bool := false
  isDeleted : Bool := false
  rowVersion : Int := 0
  deriving DecidableEq, Repr, Inhabited

/-- The table `items`; its primary key is the identifier. -/
@[ext] structure Items where
  rows : List ItemRecord
  key : (rows.map (·.identifier)).Nodup

namespace Items

instance : DecidableEq Items := fun a b =>
  decidable_of_iff (a.rows = b.rows) ⟨fun h => Items.ext h, fun h => h ▸ rfl⟩

def empty : Items := ⟨[], List.nodup_nil⟩

/-- `fetchOne` by identifier. -/
def fetch (items : Items) (identifier : String) : Option ItemRecord :=
  items.rows.find? (·.identifier = identifier)

/-- `DELETE FROM items WHERE ..` -/
def delete (items : Items) (drop : ItemRecord → Bool) : Items where
  rows := items.rows.filter (fun r => !drop r)
  key := items.key.sublist (List.filter_sublist.map _)

/-- `INSERT OR REPLACE`: a row with the identifier goes, and the record comes
under a new `rowid`. -/
def insertOrReplace (items : Items) (rec : ItemRecord) : Items where
  rows := items.rows.filter (fun r => r.identifier ≠ rec.identifier) ++ [rec]
  key := by
    rw [List.map_append, List.nodup_append']
    refine ⟨items.key.sublist (List.filter_sublist.map _), List.nodup_singleton _, ?_⟩
    simp only [List.map_cons, List.map_nil, List.disjoint_singleton, List.mem_map,
      List.mem_filter, decide_eq_true_eq, not_exists, not_and]
    intro r hr
    exact hr.2

/-- A plain `INSERT`, which fails on a used identifier. -/
def insertNew (items : Items) (rec : ItemRecord) : Option Items :=
  if ∃ r ∈ items.rows, r.identifier = rec.identifier then none
  else some (items.insertOrReplace rec)

/-- `UPDATE items SET .. WHERE identifier = ..` -/
def update (items : Items) (rec : ItemRecord) : Items where
  rows := items.rows.map (fun r => if r.identifier = rec.identifier then rec else r)
  key := by
    have hkeys : (items.rows.map (fun r => if r.identifier = rec.identifier then rec else r)).map
        (·.identifier) = items.rows.map (·.identifier) := by
      rw [List.map_map]
      apply List.map_congr_left
      intro r _
      by_cases h : r.identifier = rec.identifier <;> simp [h]
    rw [hkeys]
    exact items.key

def maxRowVersion (items : Items) : Int :=
  (items.rows.map (·.rowVersion)).max?.getD 0

/-- The row an identifier or a path shows: tombstones are hidden. -/
def item (items : Items) (identifier : String) : Option ItemRecord :=
  items.rows.find? (fun r => r.identifier = identifier ∧ r.isDeleted = false)

/-- The first `limit` changes after `anchor` in `rowVersion` order, tombstones
included. -/
def changes (items : Items) (anchor : Int) (limit : Nat) : List ItemRecord :=
  ((items.rows.filter (fun r => anchor < r.rowVersion)).mergeSort
    (fun a b => a.rowVersion ≤ b.rowVersion)).take limit

def insert (items : Items) (record : ItemRecord) : Items :=
  items.insertOrReplace { record with rowVersion := items.maxRowVersion + 1 }

def updateContent (items : Items) (identifier : String) (size : Option Int) (modified : Int) :
    Items :=
  match items.fetch identifier with
  | none => items
  | some rec =>
      items.update { rec with
        size := size
        modified := modified
        rowVersion := items.maxRowVersion + 1 }

def count (characters : String → List String) (s : String) : Nat := (characters s).length

def dropFirst (characters : String → List String) (s : String) (n : Nat) : String :=
  String.join ((characters s).drop n)

section Directories

variable (strings : Strings)

/-- The argument of LIKE for what is below a directory. -/
def descendantsPattern (directoryPath : String) : String :=
  let escaped := strings.replacingOccurrences "\\" "\\\\" directoryPath
  let escaped := strings.replacingOccurrences "%" "\\%" escaped
  let escaped := strings.replacingOccurrences "_" "\\_" escaped
  escaped ++ "/%"

/-- `localPath LIKE ? ESCAPE '\'` -/
def under (directoryPath localPath : String) : Bool :=
  Like.like '\\' (descendantsPattern strings directoryPath).toList localPath.toList

def descendants (items : Items) (directoryPath : String) : List ItemRecord :=
  (items.rows.filter (fun r => under strings directoryPath r.localPath)).mergeSort
    (fun a b => a.localPath ≤ b.localPath)

def rename (items : Items) (identifier localPath filename parentIdentifier : String) : Items :=
  match items.fetch identifier with
  | none => items
  | some rec =>
      let moved := { rec with
        filename := filename
        localPath := localPath
        parentIdentifier := parentIdentifier
        rowVersion := items.maxRowVersion + 1 }
      let items := items.update moved
      if moved.isDirectory && !strings.equal rec.localPath localPath then
        (items.descendants strings rec.localPath).foldl (fun items child =>
          items.update { child with
            localPath := localPath ++ dropFirst strings.characters child.localPath
              (count strings.characters rec.localPath) }) items
      else items

/-- A folder's rows that are not tombstoned yet, each with its own version. -/
def tombstone (items : Items) (next : Int) : List ItemRecord → Items
  | [] => items
  | child :: rest =>
      if child.isDeleted then items.tombstone next rest
      else (items.update { child with
        pendingDeletion := true
        isDeleted := true
        rowVersion := next }).tombstone (next + 1) rest

def setPending (items : Items) (identifier : String) (upload deletion : Bool) : Items :=
  match items.fetch identifier with
  | none => items
  | some rec =>
      let next := items.maxRowVersion + 1
      let flagged := { rec with
        pendingUpload := upload || rec.pendingUpload
        pendingDeletion := deletion || rec.pendingDeletion
        isDeleted := deletion || rec.isDeleted
        rowVersion := next }
      let items := items.update flagged
      if deletion ∧ flagged.isDirectory then
        items.tombstone (next + 1) (items.descendants strings flagged.localPath)
      else items

end Directories

def clearPending (items : Items) (identifier : String) : Items :=
  match items.fetch identifier with
  | none => items
  | some rec => items.update { rec with pendingUpload := false, pendingDeletion := false }

/-- `UPDATE items SET pendingUpload = 0 WHERE pendingUpload = 1` -/
def uploadsDone (items : Items) : Items where
  rows := items.rows.map (fun r => { r with pendingUpload := false })
  key := by
    rw [List.map_map]
    exact items.key

def drainPendingAfterSync (items : Items) (completed : Bool) : Items :=
  if completed then items.uploadsDone.delete (·.pendingDeletion) else items

def remove (items : Items) (identifier : String) : Items :=
  items.delete (·.identifier = identifier)

end Items

/-! ## Reconcile -/

structure ScannedEntry where
  path : String
  filename : String
  isDirectory : Bool
  size : Option Int
  modified : Int
  deriving DecidableEq, Repr

/-- What the app takes from its surroundings: beside the strings the identifiers
it mints, and the order in which a dictionary lists its values. -/
structure Surroundings extends Strings where
  mint : Nat → String
  order : List ItemRecord → List ItemRecord
  order_perm : ∀ l, (order l).Perm l

/-- `(path as NSString).deletingLastPathComponent`, if it is not empty. -/
def parentPath (path : String) : Option String :=
  let parent := (path.toList.reverse.dropWhile (· ≠ '/')).drop 1
  if parent = [] then none else some (String.ofList parent.reverse)

namespace Items

/-- The dictionary `existing` at a path: the first live row, else the last
tombstone. -/
def existing (items : Items) (path : String) : Option ItemRecord :=
  (items.rows.filter (·.localPath = path)).foldl
    (fun chosen r => match chosen with
      | none => some r
      | some a => some (if a.isDeleted then r else a)) none

/-- A tombstone beside the row that `existing` has for its path. -/
def stale (items : Items) (rec : ItemRecord) : Bool :=
  rec.isDeleted && (items.existing rec.localPath).map (·.identifier) != some rec.identifier

end Items

/-- The record of an entry, over the row the path had. -/
def ScannedEntry.onto (entry : ScannedEntry) (rec : ItemRecord) (parentIdentifier : String)
    (version : Int) : ItemRecord :=
  { rec with
    isDeleted := false
    filename := entry.filename
    isDirectory := entry.isDirectory
    size := entry.size
    modified := entry.modified
    parentIdentifier := parentIdentifier
    rowVersion := version }

def ScannedEntry.changed (entry : ScannedEntry) (rec : ItemRecord) (parentIdentifier : String) :
    Bool :=
  rec.size != entry.size || rec.modified != entry.modified ||
    rec.isDirectory != entry.isDirectory || rec.parentIdentifier != parentIdentifier ||
    rec.filename != entry.filename

/-- What `reconcile` carries from entry to entry. -/
structure Pass where
  items : Items
  nextVersion : Int
  minted : Nat := 0
  pathToUUID : List (String × String) := []

/-- `upsertEntry`, with what `reconcile` does around it for one entry; `none`
when a minted identifier is in use, which throws and rolls everything back. -/
def Pass.upsertEntry (mint : Nat → String) (existing : String → Option ItemRecord) (pass : Pass)
    (entry : ScannedEntry) : Option Pass :=
  let parentIdentifier :=
    ((parentPath entry.path).bind (pass.pathToUUID.lookup ·)).getD ""
  match existing entry.path with
  | some rec =>
      let named := (entry.path, rec.identifier) :: pass.pathToUUID
      if rec.isDeleted || entry.changed rec parentIdentifier then
        some { pass with
          items := pass.items.insertOrReplace (entry.onto rec parentIdentifier pass.nextVersion)
          nextVersion := pass.nextVersion + 1
          pathToUUID := named }
      else some { pass with pathToUUID := named }
  | none =>
      (pass.items.insertNew
        { identifier := mint pass.minted
          parentIdentifier := parentIdentifier
          filename := entry.filename
          contentHash := none
          localPath := entry.path
          isDirectory := entry.isDirectory
          size := entry.size
          modified := entry.modified
          rowVersion := pass.nextVersion }).map fun items =>
        { items := items
          nextVersion := pass.nextVersion + 1
          minted := pass.minted + 1
          pathToUUID := (entry.path, mint pass.minted) :: pass.pathToUUID }

/-- The last loop of `reconcile`, over the rows whose path is gone. -/
def Items.vanish (items : Items) (nextVersion : Int) : List ItemRecord → Items
  | [] => items
  | rec :: rest =>
      (items.insertOrReplace { rec with isDeleted := true, rowVersion := nextVersion }).vanish
        (nextVersion + 1) rest

namespace Items

/-- The values of `existing`. -/
def existingRows (items : Items) : List ItemRecord :=
  items.rows.filter (fun r => items.existing r.localPath = some r)

/-- The table without its stale tombstones. -/
def swept (items : Items) : Items := items.delete items.stale

def reconcile (env : Surroundings) (scanned : List ScannedEntry) (items : Items) : Option Items :=
  let sorted := scanned.mergeSort
    (fun a b => count env.characters a.path ≤ count env.characters b.path)
  (sorted.foldlM (Pass.upsertEntry env.mint items.existing)
      { items := items.swept, nextVersion := items.swept.maxRowVersion + 1 }).map fun pass =>
    pass.items.vanish pass.nextVersion ((env.order items.existingRows).filter fun rec =>
      !(sorted.map (·.path)).contains rec.localPath && !rec.pendingUpload &&
        !rec.pendingDeletion && !rec.isDeleted)

/-! ### What the statements do to the rows -/

theorem eq_of_identifier (items : Items) {r r' : ItemRecord} (hr : r ∈ items.rows)
    (hr' : r' ∈ items.rows) (h : r.identifier = r'.identifier) : r = r' :=
  List.inj_on_of_nodup_map items.key hr hr' h

@[simp] theorem mem_delete {items : Items} {drop : ItemRecord → Bool} {r : ItemRecord} :
    r ∈ (items.delete drop).rows ↔ r ∈ items.rows ∧ drop r = false := by
  simp [delete]

theorem delete_eq_self {items : Items} {drop : ItemRecord → Bool}
    (h : ∀ r ∈ items.rows, drop r = false) : items.delete drop = items := by
  ext1
  simp only [delete]
  rw [List.filter_eq_self]
  intro r hr
  simp [h r hr]

@[simp] theorem mem_insertOrReplace {items : Items} {rec r : ItemRecord} :
    r ∈ (items.insertOrReplace rec).rows ↔
      r ∈ items.rows ∧ r.identifier ≠ rec.identifier ∨ r = rec := by
  simp [insertOrReplace]

@[simp] theorem mem_uploadsDone {items : Items} {r : ItemRecord} :
    r ∈ items.uploadsDone.rows ↔ ∃ r' ∈ items.rows, { r' with pendingUpload := false } = r := by
  simp [uploadsDone]

theorem mem_update {items : Items} {rec r : ItemRecord} :
    r ∈ (items.update rec).rows ↔
      r ∈ items.rows ∧ r.identifier ≠ rec.identifier ∨
      r = rec ∧ ∃ r' ∈ items.rows, r'.identifier = rec.identifier := by
  simp only [update, List.mem_map]
  constructor
  · intro ⟨r', hr', h⟩
    by_cases hid : r'.identifier = rec.identifier
    · rw [if_pos hid] at h
      exact Or.inr ⟨h.symm, r', hr', hid⟩
    · rw [if_neg hid] at h
      subst h
      exact Or.inl ⟨hr', hid⟩
  · intro h
    cases h with
    | inl h => exact ⟨r, h.1, if_neg h.2⟩
    | inr h =>
        obtain ⟨heq, r', hr', hid⟩ := h
        exact ⟨r', hr', by rw [if_pos hid, heq]⟩

theorem insertNew_eq_some {items items' : Items} {rec : ItemRecord}
    (h : items.insertNew rec = some items') : items' = items.insertOrReplace rec := by
  unfold insertNew at h
  split at h
  next => cases h
  next => exact (Option.some.inj h).symm

theorem mem_of_fetch {items : Items} {identifier : String} {rec : ItemRecord}
    (h : items.fetch identifier = some rec) : rec ∈ items.rows ∧ rec.identifier = identifier :=
  ⟨List.mem_of_find?_eq_some h, by simpa using List.find?_some h⟩

theorem le_maxRowVersion {items : Items} {r : ItemRecord} (hr : r ∈ items.rows) :
    r.rowVersion ≤ items.maxRowVersion := by
  have hmem : r.rowVersion ∈ items.rows.map (·.rowVersion) := List.mem_map_of_mem hr
  unfold maxRowVersion
  cases hmax : (items.rows.map (·.rowVersion)).max? with
  | none =>
      rw [List.max?_eq_none_iff] at hmax
      rw [hmax] at hmem
      cases hmem
  | some m => exact (List.max?_le_iff hmax).1 (Int.le_refl m) _ hmem

/-- The maximum is 0 in an empty table and some row's version otherwise. -/
theorem maxRowVersion_cases (items : Items) :
    items.rows = [] ∧ items.maxRowVersion = 0 ∨
      ∃ r ∈ items.rows, r.rowVersion = items.maxRowVersion := by
  unfold maxRowVersion
  cases hmax : (items.rows.map (·.rowVersion)).max? with
  | none =>
      rw [List.max?_eq_none_iff, List.map_eq_nil_iff] at hmax
      exact Or.inl ⟨hmax, rfl⟩
  | some m => exact Or.inr (List.mem_map.mp (List.max?_mem hmax))

end Items

end ObSink.Ios
