import Mathlib.Logic.Function.Basic
import ObSink.Lib.Probe
import ObSink.Lib.Text
import ObSink.Types

/-! # The blob store of one vault

`server/src/blobs.rs`. Blobs are filed under the hash of the client's path
token: the current one under `live`, replaced ones under `_versions` and
deleted ones under `_trash`, each history entry named by the second it was
moved at. Every filesystem operation can fail; a request carries at most one
such fault. Directories and temporary files are not represented.
-/

namespace ObSink.Server

/-- The two directories that keep what is no longer live. -/
inductive Tier where
  | versions
  | trash
  deriving DecidableEq, Repr

/-- The history entries of one path, by entry name. -/
abbrev HistoryDir := Std.ExtTreeMap String Bytes

structure BlobStore where
  live : String → Option Bytes
  history : Tier → String → HistoryDir

/-- Where a write can fail: the database statements in order, then the
filesystem operations of `moveLiveReturning` and `putLive`, then the commit. -/
inductive FaultPoint where
  | begin
  | requireMember
  | lockVault
  | currentEntry
  | usedBytes
  | createHistoryDir
  | renameToHistory
  | createLiveDir
  | createTemp
  | writeTemp
  | syncTemp
  | renameTemp
  | upsertEntry
  | bumpRevision
  | commit
  deriving DecidableEq, Repr

/-- An operation that fails, with the text of its error. -/
structure Fault where
  point : FaultPoint
  message : String
  deriving DecidableEq, Repr

/-- Run the operation at `point`: it fails exactly when the fault is there. -/
def attempt (fault : Option Fault) (point : FaultPoint) : Except String Unit :=
  match fault with
  | some fault => if fault.point = point then .error fault.message else .ok ()
  | none => .ok ()

@[simp] theorem attempt_none (point : FaultPoint) : attempt none point = .ok () := rfl

/-- What `undo` needs to reverse a live-blob change. -/
structure BlobUndo where
  name : String
  restoreFrom : Option (Tier × String)
  deriving DecidableEq, Repr

namespace BlobStore

def empty : BlobStore where
  live := fun _ => none
  history := fun _ _ => ∅

def setLive (store : BlobStore) (name : String) (blob : Option Bytes) : BlobStore :=
  { store with live := Function.update store.live name blob }

def setHistory (store : BlobStore) (tier : Tier) (name : String) (dir : HistoryDir) : BlobStore :=
  { store with
    history := Function.update store.history tier
      (Function.update (store.history tier) name dir) }

/-- Temp file in the same directory, fsync, rename. -/
def putLive (store : BlobStore) (fault : Option Fault) (name : String) (sealed : Bytes) :
    Except String Unit × BlobStore :=
  let outcome := do
    attempt fault .createLiveDir
    attempt fault .createTemp
    attempt fault .writeTemp
    attempt fault .syncTemp
    attempt fault .renameTemp
  match outcome with
  | .ok () => (.ok (), store.setLive name (some sealed))
  | .error message => (.error message, store)

/-- The name the probing loop settles on: `now`, else `now-1`, `now-2`, ... -/
def entryName (dir : HistoryDir) (now : Nat) : String :=
  Probe.firstFree (Text.suffixed now) (dir.keys.contains ·) dir.keys.length 0

/-- Move the live blob into a history directory, returning the entry name
written, if there was a live blob at all. -/
def moveLiveReturning (store : BlobStore) (fault : Option Fault) (tier : Tier) (name : String)
    (now : Nat) : Except String (Option String) × BlobStore :=
  match store.live name with
  | none => (.ok none, store)
  | some blob =>
      let outcome := do
        attempt fault .createHistoryDir
        attempt fault .renameToHistory
      match outcome with
      | .ok () =>
          let dir := store.history tier name
          let entry := entryName dir now
          (.ok (some entry),
            (store.setLive name none).setHistory tier name (dir.insert entry blob))
      | .error message => (.error message, store)

/-- Archive the current blob to `_versions` if asked to, then write `sealed`. -/
def replaceLive (store : BlobStore) (fault : Option Fault) (name : String) (sealed : Bytes)
    (archive : Bool) (now : Nat) : Except String BlobUndo × BlobStore :=
  let (archived, moved) :=
    if archive then store.moveLiveReturning fault .versions name now else (.ok none, store)
  match archived with
  | .error message => (.error message, moved)
  | .ok archived =>
      match moved.putLive fault name sealed with
      | (.error message, written) => (.error message, written)
      | (.ok (), written) =>
          (.ok { name, restoreFrom := archived.map fun entry => (.versions, entry) }, written)

/-- Move the live blob to `_trash`. -/
def trashLive (store : BlobStore) (fault : Option Fault) (name : String) (now : Nat) :
    Except String BlobUndo × BlobStore :=
  match store.moveLiveReturning fault .trash name now with
  | (.error message, moved) => (.error message, moved)
  | (.ok trashed, moved) =>
      (.ok { name, restoreFrom := trashed.map fun entry => (.trash, entry) }, moved)

/-- Drop the new live blob and move the archived entry back. -/
def undo (store : BlobStore) (undo : BlobUndo) : BlobStore :=
  let dropped := store.setLive undo.name none
  match undo.restoreFrom with
  | none => dropped
  | some (tier, entry) =>
      let dir := dropped.history tier undo.name
      match dir[entry]? with
      | none => dropped
      | some blob =>
          (dropped.setHistory tier undo.name (dir.erase entry)).setLive undo.name (some blob)

/-! ## Small facts about the store -/

@[simp] theorem setLive_live_self (store : BlobStore) (name : String) (blob : Option Bytes) :
    (store.setLive name blob).live name = blob := by
  simp [setLive]

theorem setLive_live_of_ne (store : BlobStore) {name other : String} (blob : Option Bytes)
    (hne : other ≠ name) : (store.setLive name blob).live other = store.live other := by
  simp [setLive, hne]

@[simp] theorem setLive_history (store : BlobStore) (name : String) (blob : Option Bytes) :
    (store.setLive name blob).history = store.history := rfl

@[simp] theorem setHistory_live (store : BlobStore) (tier : Tier) (name : String)
    (dir : HistoryDir) : (store.setHistory tier name dir).live = store.live := rfl

@[simp] theorem setHistory_history_self (store : BlobStore) (tier : Tier) (name : String)
    (dir : HistoryDir) : (store.setHistory tier name dir).history tier name = dir := by
  simp [setHistory]

theorem setHistory_history_of_ne (store : BlobStore) (tier tier' : Tier) (name name' : String)
    (dir : HistoryDir) (hne : tier' ≠ tier ∨ name' ≠ name) :
    (store.setHistory tier name dir).history tier' name' = store.history tier' name' := by
  unfold setHistory
  by_cases htier : tier' = tier
  · subst htier
    have hname := hne.resolve_left (by simp)
    simp [hname]
  · simp [htier]

/-- The probing loop ends on a name the directory does not have. -/
theorem entryName_free (dir : HistoryDir) (now : Nat) : dir[entryName dir now]? = none := by
  have hfree := Probe.firstFree_free (Text.suffixed now) (Text.suffixed_injective now) dir.keys
  rw [Std.ExtTreeMap.mem_keys] at hfree
  exact Std.ExtTreeMap.getElem?_eq_none hfree

/-- Moving the live blob back to where it was moved from restores the store. -/
theorem undo_moved (store : BlobStore) (tier : Tier) (name : String) (now : Nat) (blob : Bytes)
    (hlive : store.live name = some blob) (after : Option Bytes) :
    undo (((store.setLive name none).setHistory tier name
        ((store.history tier name).insert (entryName (store.history tier name) now) blob)).setLive
          name after)
      { name, restoreFrom := some (tier, entryName (store.history tier name) now) } = store := by
  have hfree := entryName_free (store.history tier name) now
  have hlookup : ((store.history tier name).insert
      (entryName (store.history tier name) now) blob)[entryName (store.history tier name) now]? =
      some blob := by simp
  have herase : ((store.history tier name).insert
      (entryName (store.history tier name) now) blob).erase
        (entryName (store.history tier name) now) = store.history tier name := by
    apply Std.ExtTreeMap.ext_getElem?
    intro key
    simp only [Std.ExtTreeMap.getElem?_erase, Std.ExtTreeMap.getElem?_insert]
    split
    next heq =>
      rw [← Std.LawfulEqCmp.eq_of_compare heq, hfree]
    next => rfl
  simp only [undo, setLive_history, setHistory_history_self, hlookup, herase]
  cases store with
  | mk live history =>
      simp only at hlive
      simp only [setLive, setHistory, Function.update_self, Function.update_idem,
        Function.update_eq_self, mk.injEq, and_true]
      rw [← hlive, Function.update_eq_self]

/-- Dropping a live blob written where there was none restores the store. -/
theorem undo_fresh (store : BlobStore) (name : String) (after : Option Bytes)
    (hlive : store.live name = none) :
    undo (store.setLive name after) { name, restoreFrom := none } = store := by
  cases store with
  | mk live history =>
      simp only at hlive
      simp only [undo, setLive, Function.update_idem, mk.injEq, and_true]
      rw [← hlive, Function.update_eq_self]

end BlobStore

end ObSink.Server
