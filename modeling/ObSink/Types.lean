import Mathlib.Tactic.Common

/-! # The data of a sync cycle

Manifests, the actions and conflicts of a plan, the operations of a batch and
the result of a cycle, as `core/src/types.rs` declares them. A manifest is
keyed by real path on the client and by path token on the server.
-/

namespace ObSink

/-- File contents and ciphertext. -/
abbrev Bytes := List UInt8

/-- One manifest entry. A tombstone (`deleted`) keeps the hash of what it
deleted, to be presented as the parent hash of the next write. -/
structure FileEntry where
  hash : String := ""
  modified : Nat := 0
  size : Nat := 0
  deleted : Bool := false
  encPath : String := ""
  deriving DecidableEq, Repr

abbrev Manifest := Std.ExtTreeMap String FileEntry

inductive SyncActionKind where
  | upload
  | download
  | deleteLocal
  | deleteRemote
  deriving DecidableEq, Repr

structure SyncAction where
  path : String
  kind : SyncActionKind
  localEntry : Option FileEntry
  remoteEntry : Option FileEntry
  deriving DecidableEq, Repr

structure Conflict where
  path : String
  localEntry : FileEntry
  remoteEntry : FileEntry
  deriving DecidableEq, Repr

/-- A file that could not be transferred. A `fatal` failure is systemic and
aborted the rest of the batch. -/
structure SyncFailure where
  path : String
  kind : SyncActionKind
  error : String
  fatal : Bool
  deriving DecidableEq, Repr

structure SyncResult where
  upload : List SyncAction
  download : List SyncAction
  conflicts : List Conflict
  failures : List SyncFailure
  checkpointError : Option String
  deriving DecidableEq, Repr

structure ServerConflict where
  path : String
  current : Option FileEntry
  deriving DecidableEq, Repr

/-- One operation of a batch request, on a real path; the client tokenises
the path on the wire. -/
inductive BatchOp where
  | put (path : String) (parentHash : Option String) (contentHash : String) (content : Bytes)
  | delete (path : String) (parentHash : Option String)
  deriving DecidableEq, Repr

def BatchOp.path : BatchOp → String
  | .put path _ _ _ => path
  | .delete path _ => path

structure BatchOperationResult where
  path : String
  status : Nat
  conflict : Option ServerConflict
  deriving DecidableEq, Repr

inductive ConflictResolutionChoice where
  | keepLocal
  | keepRemote
  | keepBoth
  | defer
  deriving DecidableEq, Repr

structure ConflictResolution where
  path : String
  choice : ConflictResolutionChoice
  deriving DecidableEq, Repr

structure SyncPlan where
  upload : List SyncAction
  download : List SyncAction
  conflicts : List Conflict
  failures : List SyncFailure
  deriving DecidableEq, Repr

/-- A plan that carries only the conflicts a completed sync left open, so that
the caller can collect resolutions and call `completeSync` again. -/
def SyncPlan.fromLateConflicts (result : SyncResult) : Option SyncPlan :=
  if result.conflicts.isEmpty then none
  else some { upload := [], download := [], conflicts := result.conflicts, failures := [] }

end ObSink
