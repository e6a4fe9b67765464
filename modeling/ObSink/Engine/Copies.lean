import ObSink.Engine.Aftermath
import ObSink.Engine.Converge

/-! # Conflict copies

`KeepBoth` writes the remote version to a path that is made from the name alone.
What it keeps when that path is free, and what it takes the place of when it is not.
-/

namespace ObSink.Engine

open Prog (Setting Holds Reaches exec)
open Writes (written gated Gated Cell written_last written_eq gated_of_none gated_of_there
  gated_of_expected gated_of_deleted gated_of_parent_ne)

/-! ## What keeping both means -/

/-- The server has this text under a path. -/
def OnServer (context : Context) (server : Server.State) (path : String) (text : Bytes) : Prop :=
  ∃ row, remoteAt context server path = some row ∧ row.deleted = false ∧
    row.hash = context.crypto.contentHmac text ∧
    ∃ blob, contentAt context server path = some blob ∧ context.crypto.decrypt blob = .ok text

section Statement

variable (context : Context) (plan : SyncPlan) (resolutions : List ConflictResolution)

/-- An upload of the plan, or the local side of a conflict whose answer keeps it. -/
def Own (action : SyncAction) : Prop :=
  action ∈ plan.upload ∨ ∃ conflict ∈ plan.conflicts,
    (choiceOf resolutions conflict = some .keepLocal ∨
      choiceOf resolutions conflict = some .keepBoth) ∧ action = conflictToUpload conflict

/-- The user's own doing replaces what the server has at a path. -/
def Replaces (path : String) : Prop :=
  (∃ action ∈ plan.upload, action.path = path) ∨ ∃ conflict ∈ plan.conflicts,
    conflict.path = path ∧ choiceOf resolutions conflict = some .keepLocal

/-- The user gives up the file at a path for the server's version. -/
def GivesUp (path : String) : Prop :=
  ∃ conflict ∈ plan.conflicts, conflict.path = path ∧
    choiceOf resolutions conflict = some .keepRemote

/-- Copies of different conflicts are different files. -/
def Apart : Prop :=
  ∀ first ∈ plan.conflicts, ∀ second ∈ plan.conflicts,
    choiceOf resolutions first = some .keepBoth → choiceOf resolutions second = some .keepBoth →
    conflictCopyPath first.path = conflictCopyPath second.path → first = second

/-- A round keeps both: no file is overwritten that the user does not give up, copies
of different conflicts are different files, no text that is live on the server gets
lost, and each conflict ends with the local version under its path and the remote
version under that of its copy, in the folder and on the server. -/
structure KeepsBoth (before after : World) : Prop where
  spares : ∀ path file, before.device.folder[path]? = some file → ¬ GivesUp plan resolutions path →
    contents after.device.folder path = some file.content
  apart : Apart plan resolutions
  loses_nothing : ∀ path text, OnServer context before.server path text →
    ¬ Replaces plan resolutions path → (∃ name, contents after.device.folder name = some text) ∨
      ∃ name, OnServer context after.server name text
  keeps : ∀ conflict ∈ plan.conflicts, choiceOf resolutions conflict = some .keepBoth →
    ∃ file, before.device.folder[conflict.path]? = some file ∧
      contents after.device.folder conflict.path = some file.content ∧
      OnServer context after.server conflict.path file.content
  copies : ∀ conflict ∈ plan.conflicts, choiceOf resolutions conflict = some .keepBoth →
    ∃ text, OnServer context before.server conflict.path text ∧
      contents after.device.folder (conflictCopyPath conflict.path) = some text ∧
      OnServer context after.server (conflictCopyPath conflict.path) text

/-- The path of a conflict's copy is free, or has the remote version already. -/
structure HasRoom (world : World) (conflict : Conflict) : Prop where
  file : ∀ file, world.device.folder[conflictCopyPath conflict.path]? = some file →
    OnServer context world.server conflict.path file.content ∨
      GivesUp plan resolutions (conflictCopyPath conflict.path)
  row : remoteAt context world.server (conflictCopyPath conflict.path) = none ∨
    (∃ text, OnServer context world.server conflict.path text ∧
      OnServer context world.server (conflictCopyPath conflict.path) text) ∨
    ∃ action, Own plan resolutions action ∧ action.path = conflictCopyPath conflict.path ∧
      action.kind = .upload
  stays : ∀ action, Own plan resolutions action → action.path = conflictCopyPath conflict.path →
    action.kind ≠ .deleteRemote
  order : ∀ earlier later, plan.conflicts = earlier ++ conflict :: later → ∀ other ∈ later,
    other.path = conflictCopyPath conflict.path →
    choiceOf resolutions other = some .keepRemote → other.remoteEntry.deleted = false

/-- An upload says what the folder has at its path, and what the server has. -/
structure Brings (world : World) (action : SyncAction) : Prop where
  plain : Plain action.path
  token_valid : Server.validPath (context.crypto.pathToken action.path) = true
  side : (action.kind = .upload ∧ ∃ file, world.device.folder[action.path]? = some file ∧
      (action.localEntry.map FileEntry.hash).getD "" = context.crypto.contentHmac file.content) ∨
    (action.kind = .deleteRemote ∧ world.device.folder[action.path]? = none ∧
      ∃ row, remoteAt context world.server action.path = some row)
  gate : ∀ row, remoteAt context world.server action.path = some row →
    row.hash = (parentHash action).getD ""

/-- A plan that fits the folder and the server: since it was made nobody has written. -/
structure Fits (world : World) : Prop where
  nodup : (plan.conflicts.map Conflict.path).Nodup
  disjoint : ∀ action ∈ plan.upload, ∀ conflict ∈ plan.conflicts, action.path ≠ conflict.path
  brings : ∀ action, action ∈ plan.upload ∨ (∃ conflict ∈ plan.conflicts,
    action = conflictToUpload conflict) → Brings context world action
  remote : ∀ conflict ∈ plan.conflicts, conflict.remoteEntry.deleted = false →
    ∃ row, remoteAt context world.server conflict.path = some row ∧ row.deleted = false

end Statement

section Round

variable {context : Context} {plan : SyncPlan} {resolutions : List ConflictResolution}
  {world : World}

/-! ## What the plan and the server have -/

theorem keepBoth_live {conflict : Conflict}
    (hboth : choiceOf resolutions conflict = some .keepBoth) :
    conflict.remoteEntry.deleted = false ∧ conflict.localEntry.deleted = false := by
  unfold choiceOf at hboth
  obtain ⟨choice, _, heffective⟩ := Option.map_eq_some_iff.mp hboth
  cases choice with
  | keepBoth =>
      cases hremote : conflict.remoteEntry.deleted with
      | true => simp [effectiveChoice, hremote] at heffective
      | false =>
          cases hlocal : conflict.localEntry.deleted with
          | true => simp [effectiveChoice, hremote, hlocal] at heffective
          | false => exact ⟨rfl, rfl⟩
  | _ => cases heffective

theorem onServer_iff {path : String} {text : Bytes} :
    OnServer context world.server path text ↔
      world.entryAt context path = some ⟨context.crypto.contentHmac text, some text⟩ := by
  unfold World.entryAt View.entry World.view
  constructor
  · rintro ⟨row, hrow, hlive, hhash, blob, hblob, hdecrypt⟩
    simp only [hrow, Option.map_some, hhash, hlive, hblob, Option.bind_some, hdecrypt]
    rfl
  · intro hentry
    obtain ⟨row, hrow, hfound⟩ := Option.map_eq_some_iff.mp hentry
    obtain ⟨hhash, hvalue⟩ := Cell.mk.inj hfound
    cases hlive : row.deleted with
    | true =>
        rw [hlive] at hvalue
        cases hvalue
    | false =>
        rw [hlive] at hvalue
        obtain ⟨blob, hblob, hdecrypt⟩ := Option.bind_eq_some_iff.mp hvalue
        refine ⟨row, hrow, hlive, hhash, blob, hblob, ?_⟩
        cases hresult : context.crypto.decrypt blob with
        | error error =>
            rw [hresult] at hdecrypt
            cases hdecrypt
        | ok plaintext =>
            rw [hresult] at hdecrypt
            exact congrArg Except.ok (Option.some.inj hdecrypt)

theorem OnServer.text_eq {path : String} {text : Bytes}
    (hserver : OnServer context world.server path text) :
    world.text context path = some text := by
  obtain ⟨row, _, _, _, blob, hblob, hdecrypt⟩ := hserver
  rw [World.text, hblob, Option.bind_some, hdecrypt]
  rfl

/-- A live row has a text. -/
theorem exists_onServer (hhonest : Honest context world.server) {path : String} {row : FileEntry}
    (hrow : remoteAt context world.server path = some row) (hlive : row.deleted = false) :
    ∃ text, OnServer context world.server path text := by
  obtain ⟨content, hhash, hblob⟩ := (hhonest.row path row hrow).hashed
  exact ⟨content, row, hrow, hlive, hhash, hblob hlive⟩

theorem hash_ne_empty (hideal : context.Ideal) (hhonest : Honest context world.server)
    {path : String} {row : FileEntry} (hrow : remoteAt context world.server path = some row) :
    row.hash ≠ "" := by
  obtain ⟨content, hhash, _⟩ := (hhonest.row path row hrow).hashed
  rw [hhash]
  exact hideal.crypto.contentHmac_ne_empty content

theorem Fits.own (hfits : Fits context plan world) {action : SyncAction}
    (hown : Own plan resolutions action) : Brings context world action := by
  apply hfits.brings
  rcases hown with hplanned | ⟨conflict, hmem, _, rfl⟩
  · exact Or.inl hplanned
  · exact Or.inr ⟨conflict, hmem, rfl⟩

/-- One conflict a path. -/
theorem Fits.conflict_eq (hfits : Fits context plan world) {first second : Conflict}
    (hfirst : first ∈ plan.conflicts) (hsecond : second ∈ plan.conflicts)
    (hpath : first.path = second.path) : first = second :=
  List.inj_on_of_nodup_map hfits.nodup hfirst hsecond hpath

/-- What the user sends is not given up. -/
theorem Fits.not_givesUp (hfits : Fits context plan world) {action : SyncAction}
    (hown : Own plan resolutions action) : ¬ GivesUp plan resolutions action.path := by
  rintro ⟨conflict, hmem, hpath, hremote⟩
  rcases hown with hplanned | ⟨other, hother, hanswer, rfl⟩
  · exact hfits.disjoint action hplanned conflict hmem hpath.symm
  · obtain rfl := hfits.conflict_eq hmem hother hpath
    rcases hanswer with hlocal | hboth
    · rw [hremote] at hlocal
      cases hlocal
    · rw [hremote] at hboth
      cases hboth

/-- The text that the server has for a conflict that is kept on both sides. -/
theorem Fits.remote_text (hfits : Fits context plan world) (hhonest : Honest context world.server)
    {conflict : Conflict} (hmem : conflict ∈ plan.conflicts)
    (hboth : choiceOf resolutions conflict = some .keepBoth) :
    ∃ text, OnServer context world.server conflict.path text := by
  obtain ⟨row, hrow, hlive⟩ := hfits.remote conflict hmem (keepBoth_live hboth).1
  exact exists_onServer hhonest hrow hlive

/-- And the file that the folder has. -/
theorem Fits.local_file (hfits : Fits context plan world) {conflict : Conflict}
    (hmem : conflict ∈ plan.conflicts) (hboth : choiceOf resolutions conflict = some .keepBoth) :
    ∃ file, world.device.folder[conflict.path]? = some file ∧
      conflict.localEntry.hash = context.crypto.contentHmac file.content := by
  have hkind : (conflictToUpload conflict).kind = .upload := by
    simp [conflictToUpload, (keepBoth_live hboth).2]
  have hbrings := hfits.brings (conflictToUpload conflict) (Or.inr ⟨conflict, hmem, rfl⟩)
  rcases hbrings.side with ⟨_, file, hfile, hhash⟩ | ⟨hdelete, _⟩
  · exact ⟨file, hfile, hhash⟩
  · rw [hkind] at hdelete
    cases hdelete

/-! ## What is written, and what is sent -/

theorem mem_writes {write : String × Option Bytes} {conflicts : List Conflict}
    {texts : String → Option Bytes}
    (hmem : write ∈ conflicts.flatMap (writesOf texts resolutions)) :
    ∃ conflict ∈ conflicts,
      (choiceOf resolutions conflict = some .keepRemote ∧ write =
        (conflict.path, if conflict.remoteEntry.deleted then none else texts conflict.path)) ∨
      (choiceOf resolutions conflict = some .keepBoth ∧
        write = (conflictCopyPath conflict.path, texts conflict.path)) := by
  obtain ⟨conflict, hconflict, hwrite⟩ := List.mem_flatMap.mp hmem
  refine ⟨conflict, hconflict, ?_⟩
  unfold writesOf at hwrite
  split at hwrite
  next hremote => exact Or.inl ⟨hremote, List.mem_singleton.mp hwrite⟩
  next hboth => exact Or.inr ⟨hboth, List.mem_singleton.mp hwrite⟩
  next => cases hwrite

theorem mem_sentsOf {sent : Sent} (hmem : sent ∈ sentsOf context plan resolutions world) :
    (∃ action, Own plan resolutions action ∧ sent = Sent.of action) ∨
      ∃ conflict ∈ plan.conflicts, choiceOf resolutions conflict = some .keepBoth ∧
        sent = copySent context.crypto (conflictCopyPath conflict.path)
          ((world.text context conflict.path).getD []) := by
  rcases List.mem_append.mp hmem with hplanned | hanswered
  · obtain ⟨action, haction, rfl⟩ := List.mem_map.mp hplanned
    exact Or.inl ⟨action, Or.inl haction, rfl⟩
  · obtain ⟨conflict, hconflict, hsent⟩ := List.mem_flatMap.mp hanswered
    unfold sentOf at hsent
    split at hsent
    next hlocal =>
      obtain rfl := List.mem_singleton.mp hsent
      exact Or.inl ⟨_, Or.inr ⟨conflict, hconflict, Or.inl hlocal, rfl⟩, rfl⟩
    next hboth =>
      rcases List.mem_cons.mp hsent with rfl | hcopy
      · exact Or.inl ⟨_, Or.inr ⟨conflict, hconflict, Or.inr hboth, rfl⟩, rfl⟩
      · exact Or.inr ⟨conflict, hconflict, hboth, List.mem_singleton.mp hcopy⟩
    next => cases hsent

theorem own_mem_sentsOf {action : SyncAction} (hown : Own plan resolutions action) :
    Sent.of action ∈ sentsOf context plan resolutions world := by
  rcases hown with hplanned | ⟨conflict, hmem, hanswer, rfl⟩
  · exact List.mem_append_left _ (List.mem_map_of_mem hplanned)
  · apply List.mem_append_right
    apply List.mem_flatMap.mpr
    refine ⟨conflict, hmem, ?_⟩
    rcases hanswer with hlocal | hboth
    · simp [sentOf, hlocal]
    · simp [sentOf, hboth]

theorem copy_mem_sentsOf {conflict : Conflict} (hmem : conflict ∈ plan.conflicts)
    (hboth : choiceOf resolutions conflict = some .keepBoth) :
    copySent context.crypto (conflictCopyPath conflict.path)
      ((world.text context conflict.path).getD []) ∈ sentsOf context plan resolutions world := by
  apply List.mem_append_right
  apply List.mem_flatMap.mpr
  exact ⟨conflict, hmem, by simp [sentOf, hboth]⟩

theorem plain_conflictCopyPath {path : String} (hplain : Plain path) :
    Plain (conflictCopyPath path) := by
  intro hslash
  rcases mem_conflictCopyPath hslash with hmem | hmem | hmem
  · exact hplain hmem
  · exact absurd hmem (by decide)
  · exact absurd hmem (by decide)

/-- Everything a round sends can be sent. -/
theorem Fits.sendable (hfits : Fits context plan world)
    (hvalid : ∀ conflict ∈ plan.conflicts,
      Server.validPath (context.crypto.pathToken (conflictCopyPath conflict.path)) = true) :
    ∀ sent ∈ sentsOf context plan resolutions world, Sendable context sent := by
  intro sent hmem
  rcases mem_sentsOf hmem with ⟨action, hown, rfl⟩ | ⟨conflict, hconflict, hboth, rfl⟩
  · have hbrings := hfits.own hown
    refine ⟨hbrings.plain, hbrings.token_valid, ?_⟩
    rcases hbrings.side with ⟨hkind, file, _, hhash⟩ | ⟨hkind, _⟩
    · exact Or.inl ⟨hkind, file.content, hhash⟩
    · exact Or.inr hkind
  · have hbrings := hfits.brings (conflictToUpload conflict) (Or.inr ⟨conflict, hconflict, rfl⟩)
    exact ⟨plain_conflictCopyPath hbrings.plain, hvalid conflict hconflict, Or.inl ⟨rfl, _, rfl⟩⟩

/-- The gated writes of an upload. -/
theorem mem_gatedOf {kept : Option Bytes} {sent : Sent} {write : Gated String Bytes}
    (hmem : write ∈ gatedOf kept sent) :
    (sent.kind = .upload ∧ ∃ text, kept = some text ∧ write = .put sent.hash sent.parent text) ∨
      (sent.kind = .deleteRemote ∧ write = .delete sent.parent) := by
  unfold gatedOf at hmem
  split at hmem
  next text hkind =>
    exact Or.inl ⟨hkind, text, rfl, List.mem_singleton.mp hmem⟩
  next hkind =>
    exact Or.inr ⟨hkind, List.mem_singleton.mp hmem⟩
  next => cases hmem

variable (context plan resolutions world) in
/-- A write at the row of a path: that of an own upload, or of a copy. -/
def GateOf (path : String) (write : Gated String Bytes) : Prop :=
  (∃ action, Own plan resolutions action ∧ action.path = path ∧
    ((action.kind = .upload ∧ ∃ text,
      contentsAfter context plan resolutions world path = some text ∧
      write =
        .put ((action.localEntry.map FileEntry.hash).getD "") ((parentHash action).getD "") text) ∨
    (action.kind = .deleteRemote ∧ write = .delete ((parentHash action).getD "")))) ∨
  ∃ conflict ∈ plan.conflicts, choiceOf resolutions conflict = some .keepBoth ∧
    conflictCopyPath conflict.path = path ∧
    ∃ text, contentsAfter context plan resolutions world path = some text ∧
      write = .put (context.crypto.contentHmac ((world.text context conflict.path).getD [])) "" text

theorem mem_gatesAt {path : String} {write : Gated String Bytes}
    (hmem : write ∈ gatesAt context plan resolutions world path) :
    GateOf context plan resolutions world path write := by
  obtain ⟨sent, hsent, hwrite⟩ := List.mem_flatMap.mp hmem
  obtain ⟨hsent, hpath⟩ := List.mem_filter.mp hsent
  have hpath : sent.path = path := of_decide_eq_true hpath
  rcases mem_sentsOf hsent with ⟨action, hown, rfl⟩ | ⟨conflict, hconflict, hboth, rfl⟩
  · exact Or.inl ⟨action, hown, hpath, mem_gatedOf hwrite⟩
  · rcases mem_gatedOf hwrite with ⟨_, text, hkept, rfl⟩ | ⟨hkind, _⟩
    · exact Or.inr ⟨conflict, hconflict, hboth, hpath, text, hkept, rfl⟩
    · cases hkind

theorem gate_of_sent {sent : Sent} (hsent : sent ∈ sentsOf context plan resolutions world)
    {write : Gated String Bytes}
    (hwrite : write ∈ gatedOf (contentsAfter context plan resolutions world sent.path) sent) :
    write ∈ gatesAt context plan resolutions world sent.path :=
  List.mem_flatMap.mpr ⟨sent, List.mem_filter.mpr ⟨hsent, decide_eq_true rfl⟩, hwrite⟩

theorem own_put_mem {action : SyncAction} (hown : Own plan resolutions action)
    (hkind : action.kind = .upload) {text : Bytes}
    (hkept : contentsAfter context plan resolutions world action.path = some text) :
    .put ((action.localEntry.map FileEntry.hash).getD "") ((parentHash action).getD "") text ∈
      gatesAt context plan resolutions world action.path := by
  apply gate_of_sent (own_mem_sentsOf hown)
  rw [show (Sent.of action).path = action.path from rfl, hkept]
  simp [gatedOf, Sent.of, hkind]

theorem own_delete_mem {action : SyncAction} (hown : Own plan resolutions action)
    (hkind : action.kind = .deleteRemote) :
    .delete ((parentHash action).getD "") ∈ gatesAt context plan resolutions world action.path := by
  apply gate_of_sent (own_mem_sentsOf hown)
  simp [gatedOf, Sent.of, hkind]

theorem copy_put_mem {conflict : Conflict} (hmem : conflict ∈ plan.conflicts)
    (hboth : choiceOf resolutions conflict = some .keepBoth) {text : Bytes}
    (hkept :
      contentsAfter context plan resolutions world (conflictCopyPath conflict.path) = some text) :
    .put (context.crypto.contentHmac ((world.text context conflict.path).getD [])) "" text ∈
      gatesAt context plan resolutions world (conflictCopyPath conflict.path) := by
  apply gate_of_sent (copy_mem_sentsOf hmem hboth)
  rw [show (copySent context.crypto (conflictCopyPath conflict.path)
    ((world.text context conflict.path).getD [])).path =
      conflictCopyPath conflict.path from rfl, hkept]
  exact List.mem_singleton_self _

/-! ## A copy with room -/

section Room

variable (hfits : Fits context plan world) (hapart : Apart plan resolutions)
  (hroom : ∀ conflict ∈ plan.conflicts, choiceOf resolutions conflict = some .keepBoth →
    HasRoom context plan resolutions world conflict)

include hroom in
/-- A file that is not given up keeps its content: a copy that is written over it is
the same. -/
theorem contentsAfter_of_file {path : String} {file : StoredFile}
    (hfile : world.device.folder[path]? = some file) (hkeeps : ¬ GivesUp plan resolutions path) :
    contentsAfter context plan resolutions world path = some file.content := by
  apply written_eq
  · simp [contents, hfile]
  · intro write hmem hpath
    obtain ⟨conflict, hconflict, hcases⟩ := mem_writes hmem
    rcases hcases with ⟨hremote, rfl⟩ | ⟨hboth, rfl⟩
    · exact absurd ⟨conflict, hconflict, hpath, hremote⟩ hkeeps
    · have hcopy : conflictCopyPath conflict.path = path := hpath
      rcases (hroom conflict hconflict hboth).file file (hcopy ▸ hfile) with hserver | hgiven
      · exact hserver.text_eq
      · exact absurd (hcopy ▸ hgiven) hkeeps

include hfits hapart hroom in
/-- The copy has the remote version. -/
theorem contentsAfter_of_copy {conflict : Conflict} (hmem : conflict ∈ plan.conflicts)
    (hboth : choiceOf resolutions conflict = some .keepBoth) {text : Bytes}
    (htext : OnServer context world.server conflict.path text) :
    contentsAfter context plan resolutions world (conflictCopyPath conflict.path) = some text := by
  obtain ⟨earlier, later, hsplit⟩ := List.append_of_mem hmem
  have hlast := hroom conflict hmem hboth
  have hwrites : plan.conflicts.flatMap (writesOf (world.text context) resolutions) =
      earlier.flatMap (writesOf (world.text context) resolutions) ++
        (conflictCopyPath conflict.path, some text) ::
          later.flatMap (writesOf (world.text context) resolutions) := by
    rw [hsplit, List.flatMap_append, List.flatMap_cons]
    simp [writesOf, hboth, htext.text_eq]
  rw [contentsAfter, hwrites]
  apply written_last
  -- what is written there later is the remote version too
  intro write hwrite hpath
  obtain ⟨other, hother, hcases⟩ := mem_writes hwrite
  have hotherMem : other ∈ plan.conflicts := by
    rw [hsplit]
    exact List.mem_append_right _ (List.mem_cons_of_mem _ hother)
  rcases hcases with ⟨hremote, rfl⟩ | ⟨hotherBoth, rfl⟩
  · have hcopy : other.path = conflictCopyPath conflict.path := hpath
    have hlive := hlast.order earlier later hsplit other hother hcopy hremote
    obtain ⟨row, hrow, hrowLive⟩ := hfits.remote other hotherMem hlive
    rw [hcopy] at hrow
    simp only [hlive, Bool.false_eq_true, ↓reduceIte, hcopy]
    rcases hlast.row with hnone | ⟨found, hfound, hthere⟩ | ⟨action, hown, haction, _⟩
    · rw [hrow] at hnone
      cases hnone
    · rw [hthere.text_eq, ← hfound.text_eq]
      exact htext.text_eq
    · exact absurd ⟨other, hotherMem, hcopy.trans haction.symm, hremote⟩ (hfits.not_givesUp hown)
  · obtain rfl := hapart other hotherMem conflict hmem hotherBoth hboth hpath
    exact htext.text_eq

include hfits in
/-- An own upload of a file sends its content. -/
theorem own_hash {action : SyncAction} (hown : Own plan resolutions action)
    {file : StoredFile} (hfile : world.device.folder[action.path]? = some file) :
    action.kind = .upload ∧
      (action.localEntry.map FileEntry.hash).getD "" = context.crypto.contentHmac file.content := by
  rcases (hfits.own hown).side with ⟨hkind, found, hfound, hhash⟩ | ⟨_, hnone, _⟩
  · rw [hfile] at hfound
    obtain rfl := Option.some.inj hfound
    exact ⟨hkind, hhash⟩
  · rw [hfile] at hnone
    cases hnone

theorem entryAt_of_row {path : String} {row : FileEntry}
    (hrow : remoteAt context world.server path = some row) :
    ∃ value, world.entryAt context path = some ⟨row.hash, value⟩ := by
  simp only [World.entryAt, View.entry, World.view, hrow, Option.map_some]
  exact ⟨_, rfl⟩

theorem entryAt_of_none {path : String} (hrow : remoteAt context world.server path = none) :
    world.entryAt context path = none := by
  simp only [World.entryAt, View.entry, World.view, hrow, Option.map_none]

include hfits in
/-- The put of a file for a row that the plan knows gets there, whatever else puts
the same content. -/
theorem gated_of_own {path : String} {text : Bytes}
    (hputs : ∀ write ∈ gatesAt context plan resolutions world path,
      ∃ parent, write = .put (context.crypto.contentHmac text) parent text)
    {action : SyncAction} (hown : Own plan resolutions action) (hpath : action.path = path)
    (hkind : action.kind = .upload)
    (hkept : contentsAfter context plan resolutions world path = some text) :
    gated "" (gatesAt context plan resolutions world path) (world.entryAt context path) =
      some ⟨context.crypto.contentHmac text, some text⟩ := by
  subst hpath
  have hmem := own_put_mem hown hkind hkept
  cases hrow : remoteAt context world.server action.path with
  | none =>
      rw [entryAt_of_none hrow]
      exact gated_of_none hputs (List.ne_nil_of_mem hmem)
  | some row =>
      obtain ⟨value, hentry⟩ := entryAt_of_row hrow
      rw [hentry]
      exact gated_of_expected hputs ⟨_, hmem, ((hfits.own hown).gate row hrow).symm⟩

include hfits hapart hroom in
/-- The server has the remote version under the path of the copy. -/
theorem gated_of_copy {conflict : Conflict} (hmem : conflict ∈ plan.conflicts)
    (hboth : choiceOf resolutions conflict = some .keepBoth) {text : Bytes}
    (htext : OnServer context world.server conflict.path text) :
    gated "" (gatesAt context plan resolutions world (conflictCopyPath conflict.path))
        (world.entryAt context (conflictCopyPath conflict.path)) =
      some ⟨context.crypto.contentHmac text, some text⟩ := by
  have hlast := hroom conflict hmem hboth
  have hkept := contentsAfter_of_copy hfits hapart hroom hmem hboth htext
  have hputs : ∀ write ∈ gatesAt context plan resolutions world (conflictCopyPath conflict.path),
      ∃ parent, write = .put (context.crypto.contentHmac text) parent text := by
    intro write hwrite
    rcases mem_gatesAt hwrite with ⟨action, hown, hpath, hcases⟩ |
      ⟨other, hother, hotherBoth, hpath, found, hfound, rfl⟩
    · rcases hcases with ⟨hkind, found, hfound, rfl⟩ | ⟨hkind, _⟩
      · rw [hkept] at hfound
        obtain rfl := Option.some.inj hfound
        -- the file there is the remote version
        rcases (hfits.own hown).side with ⟨_, file, hfile, hhash⟩ | ⟨hdelete, _⟩
        · rcases hlast.file file (hpath ▸ hfile) with hserver | hgiven
          · have hsame : file.content = text :=
              Option.some.inj (hserver.text_eq.symm.trans htext.text_eq)
            rw [hhash, hsame]
            exact ⟨_, rfl⟩
          · exact absurd (hpath ▸ hgiven) (hfits.not_givesUp hown)
        · rw [hkind] at hdelete
          cases hdelete
      · exact absurd hkind (hlast.stays action hown hpath)
    · obtain rfl := hapart other hother conflict hmem hotherBoth hboth hpath
      rw [hkept] at hfound
      obtain rfl := Option.some.inj hfound
      rw [htext.text_eq]
      exact ⟨_, rfl⟩
  rcases hlast.row with hnone | ⟨found, hfound, hthere⟩ | ⟨action, hown, hpath, hkind⟩
  · rw [entryAt_of_none hnone]
    exact gated_of_none hputs (List.ne_nil_of_mem (copy_put_mem hmem hboth hkept))
  · have hsame : found = text := Option.some.inj (hfound.text_eq.symm.trans htext.text_eq)
    rw [onServer_iff.mp hthere, hsame]
    exact gated_of_there hputs
  · exact gated_of_own hfits hputs hown hpath hkind hkept

include hfits hroom in
/-- The server has the local version under the path of the conflict. -/
theorem gated_of_kept {conflict : Conflict} (hmem : conflict ∈ plan.conflicts)
    (hboth : choiceOf resolutions conflict = some .keepBoth) {file : StoredFile}
    (hfile : world.device.folder[conflict.path]? = some file) :
    contentsAfter context plan resolutions world conflict.path = some file.content ∧
      gated "" (gatesAt context plan resolutions world conflict.path)
          (world.entryAt context conflict.path) =
        some ⟨context.crypto.contentHmac file.content, some file.content⟩ := by
  have hown : Own plan resolutions (conflictToUpload conflict) :=
    Or.inr ⟨conflict, hmem, Or.inr hboth, rfl⟩
  have hkeeps : ¬ GivesUp plan resolutions conflict.path := hfits.not_givesUp hown
  have hkept := contentsAfter_of_file hroom hfile hkeeps
  refine ⟨hkept, gated_of_own hfits ?_ hown rfl (own_hash hfits hown hfile).1 hkept⟩
  intro write hwrite
  rcases mem_gatesAt hwrite with ⟨action, haction, hpath, hcases⟩ |
    ⟨other, hother, hotherBoth, hpath, found, hfound, rfl⟩
  · obtain ⟨hkind, hhash⟩ := own_hash hfits haction (hpath ▸ hfile)
    rcases hcases with ⟨_, found, hfound, rfl⟩ | ⟨hdelete, _⟩
    · rw [hkept] at hfound
      obtain rfl := Option.some.inj hfound
      rw [hhash]
      exact ⟨_, rfl⟩
    · rw [hkind] at hdelete
      cases hdelete
  · rw [hkept] at hfound
    obtain rfl := Option.some.inj hfound
    rcases (hroom other hother hotherBoth).file file (hpath ▸ hfile) with hserver | hgiven
    · rw [hserver.text_eq]
      exact ⟨_, rfl⟩
    · exact absurd (hpath ▸ hgiven) hkeeps

end Room

/-! ## A copy without room -/

section NoRoom

variable (hideal : context.Ideal) (hhonest : Honest context world.server)
  (hfits : Fits context plan world)

include hideal hhonest in
/-- A copy is not put over a row. -/
theorem gated_of_no_own {path : String} {row : FileEntry}
    (hrow : remoteAt context world.server path = some row)
    (hnone : ∀ action, Own plan resolutions action → action.path ≠ path) :
    gated "" (gatesAt context plan resolutions world path) (world.entryAt context path) =
      world.entryAt context path := by
  obtain ⟨value, hentry⟩ := entryAt_of_row hrow
  rw [hentry]
  apply gated_of_parent_ne
  intro write hwrite
  rcases mem_gatesAt hwrite with ⟨action, hown, hpath, _⟩ | ⟨_, _, _, _, _, _, rfl⟩
  · exact absurd hpath (hnone action hown)
  · exact (hash_ne_empty hideal hhonest hrow).symm

include hideal hhonest hfits in
/-- A delete at the path of a copy ends with a tombstone. -/
theorem gated_of_own_delete {action : SyncAction} (hown : Own plan resolutions action)
    (hkind : action.kind = .deleteRemote) :
    ∃ hash, gated "" (gatesAt context plan resolutions world action.path)
      (world.entryAt context action.path) = some ⟨hash, none⟩ := by
  have hbrings := hfits.own hown
  obtain ⟨hfile, row, hrow⟩ : world.device.folder[action.path]? = none ∧
      ∃ row, remoteAt context world.server action.path = some row := by
    rcases hbrings.side with ⟨hupload, _⟩ | ⟨_, hfile, hrow⟩
    · rw [hkind] at hupload
      cases hupload
    · exact ⟨hfile, hrow⟩
  obtain ⟨value, hentry⟩ := entryAt_of_row hrow
  refine ⟨row.hash, ?_⟩
  rw [hentry]
  apply gated_of_deleted
  · intro write hwrite
    rcases mem_gatesAt hwrite with ⟨other, hother, hpath, hcases⟩ | ⟨_, _, _, _, _, _, rfl⟩
    · rcases hcases with ⟨hupload, _⟩ | ⟨_, rfl⟩
      · rcases (hfits.own hother).side with ⟨_, file, hfound, _⟩ | ⟨hdelete, _⟩
        · rw [hpath, hfile] at hfound
          cases hfound
        · rw [hupload] at hdelete
          cases hdelete
      · exact Or.inl (congrArg Gated.delete ((hfits.own hother).gate row (hpath ▸ hrow)).symm)
    · exact Or.inr (hash_ne_empty hideal hhonest hrow).symm
  · right
    have hmem := @own_delete_mem context plan resolutions world action hown hkind
    rwa [← hbrings.gate row hrow] at hmem

include hfits in
/-- A deletion that is taken over later takes the copy along. -/
theorem contentsAfter_of_dropped (hapart : Apart plan resolutions) {conflict other : Conflict}
    {earlier later : List Conflict} (hsplit : plan.conflicts = earlier ++ conflict :: later)
    (hboth : choiceOf resolutions conflict = some .keepBoth) (hother : other ∈ later)
    (hpath : other.path = conflictCopyPath conflict.path)
    (hremote : choiceOf resolutions other = some .keepRemote)
    (hdeleted : other.remoteEntry.deleted = true) :
    contentsAfter context plan resolutions world (conflictCopyPath conflict.path) = none := by
  have hmem : conflict ∈ plan.conflicts := by
    rw [hsplit]
    exact List.mem_append_right _ List.mem_cons_self
  have hnot : conflict ∉ later := by
    have hnodup := hfits.nodup.of_map
    rw [hsplit] at hnodup
    exact (List.nodup_cons.mp (List.nodup_append.mp hnodup).2.1).1
  obtain ⟨between, rest, rfl⟩ := List.append_of_mem hother
  have hotherMem : other ∈ plan.conflicts := by
    rw [hsplit]
    simp
  have hwrites : plan.conflicts.flatMap (writesOf (world.text context) resolutions) =
      (earlier ++ conflict :: between).flatMap (writesOf (world.text context) resolutions) ++
        (conflictCopyPath conflict.path, none) ::
          rest.flatMap (writesOf (world.text context) resolutions) := by
    rw [hsplit, show earlier ++ conflict :: (between ++ other :: rest) =
        (earlier ++ conflict :: between) ++ other :: rest by simp,
      List.flatMap_append, List.flatMap_cons]
    simp [writesOf, hremote, hdeleted, hpath]
  rw [contentsAfter, hwrites]
  apply written_last
  intro write hwrite hwritePath
  obtain ⟨third, hthird, hcases⟩ := mem_writes hwrite
  have hthirdMem : third ∈ plan.conflicts := by
    rw [hsplit]
    simp [hthird]
  rcases hcases with ⟨_, rfl⟩ | ⟨hthirdBoth, rfl⟩
  · obtain rfl := hfits.conflict_eq hthirdMem hotherMem (hwritePath.trans hpath.symm)
    simp [hdeleted]
  · obtain rfl := hapart third hthirdMem conflict hmem hthirdBoth hboth hwritePath
    exact absurd (List.mem_append_right _ (List.mem_cons_of_mem _ hthird)) hnot

end NoRoom

/-! ## Plans that fit -/

/-- An action that pushes its path brings what is there. -/
theorem Brings.of_pushes {path : String} {start : View} {action : SyncAction}
    (hpushes : Pushes context (fun _ => .keepLocal) path start action)
    (hhere : Here context path (· = start) world) : Brings context world action := by
  obtain ⟨hsound, hview⟩ := hhere
  obtain rfl := hpushes.path_eq
  have hfile : world.device.folder[action.path]? = start.file := congrArg View.file hview
  have hrow : remoteAt context world.server action.path = start.row := congrArg View.row hview
  have hgate : ∀ row, remoteAt context world.server action.path = some row →
      row.hash = (parentHash action).getD "" := by
    intro row hfound
    exact hpushes.gate row (hrow.symm.trans hfound)
  rcases hpushes.side with ⟨hkind, file, hfound, hentry⟩ | ⟨hkind, hnone, row, hfound⟩
  · rw [hfound] at hfile
    obtain ⟨hplain, hvalid⟩ := hsound.named file hfile
    refine ⟨hplain, hvalid, Or.inl ⟨hkind, file, hfile, ?_⟩, hgate⟩
    rw [hentry]
    rfl
  · rw [hfound] at hrow
    rw [hnone] at hfile
    exact ⟨plain_of_remoteAt hrow, (hsound.row row hrow).token_valid,
      Or.inr ⟨hkind, hfile, row, hrow⟩, hgate⟩

theorem PlanReady.fits {start : String → View}
    (hready : PlanReady context (fun _ => .keepLocal) start plan world) :
    Fits context plan world := by
  obtain ⟨base, working, remote, rfl, hplanned, hhere⟩ := hready
  have hupload : ∀ action ∈ (diffManifests base working remote).upload,
      decisionAt base working remote action.path = .upload action :=
    fun action hmem => mem_diff_upload.mp hmem
  have hconflict : ∀ conflict ∈ (diffManifests base working remote).conflicts,
      decisionAt base working remote conflict.path = .conflict conflict :=
    fun conflict hmem => mem_diff_conflicts.mp hmem
  constructor
  · exact nodup_diff_conflicts base working remote
  · intro action haction conflict hmem hpath
    have hdecision := hupload action haction
    rw [hpath, hconflict conflict hmem] at hdecision
    cases hdecision
  · rintro action (haction | ⟨conflict, hmem, rfl⟩)
    · have hpath := hplanned action.path
      have hview := hhere action.path
      rw [hupload action haction] at hpath hview
      cases hpath with
      | upload _ hpushes _ => exact Brings.of_pushes hpushes hview
    · have hpath := hplanned conflict.path
      have hview := hhere conflict.path
      rw [hconflict conflict hmem] at hpath hview
      cases hpath with
      | conflict _ _ _ _ _ hlocal _ => exact Brings.of_pushes (hlocal rfl) hview
  · intro conflict hmem hlive
    have hpath := hplanned conflict.path
    have hview := hhere conflict.path
    rw [hconflict conflict hmem] at hpath hview
    cases hpath with
    | conflict _ _ _ _ hremote _ _ =>
      rcases hremote with ⟨hdeleted, _⟩ | ⟨_, row, hrow, hrowLive⟩
      · rw [hlive] at hdeleted
        cases hdeleted
      · exact ⟨row, (congrArg View.row hview.2).trans hrow, hrowLive⟩

/-- A plan fits the world that it was prepared in. -/
theorem fits_of_prepareSync (hideal : context.Ideal) {start : World} (hsound : Sound context start)
    (hrun : Reaches (Undisturbed context (fun _ => .keepLocal) false)
      (prepareSync context.crypto context.ignore) start (.pure (.ok plan)) world) :
    Fits context plan world ∧ Honest context world.server := by
  have hholds : Holds (quietAll context (fun _ => .keepLocal) false fun path =>
      (start.view context path).goal context (fun _ => .keepLocal) path) _
      (prepareSync context.crypto context.ignore) start :=
    holds_prepareSync hideal hsound fun _ => rfl
  obtain ⟨found, hfound, hready⟩ := hholds.reaches (fun _ => rfl) hrun
  obtain rfl := Except.ok.inj hfound
  have hsoundNow : Sound context world := by
    obtain ⟨_, _, _, _, _, hhere⟩ := hready
    exact fun path => (hhere path).1
  exact ⟨hready.fits, hsoundNow.honest⟩

/-! ## The round -/

section Done

variable (hideal : context.Ideal) (hhonest : Honest context world.server)
  (hfits : Fits context plan world) {after : World}
  (hdone : DoneBy context plan resolutions world after)

include hideal hhonest hfits hdone in
/-- What keeping both takes. -/
theorem KeepsBoth.hasRoom (hkeeps : KeepsBoth context plan resolutions world after)
    {conflict : Conflict} (hmem : conflict ∈ plan.conflicts)
    (hboth : choiceOf resolutions conflict = some .keepBoth) :
    HasRoom context plan resolutions world conflict := by
  obtain ⟨text, htext, hcontent, hserver⟩ := hkeeps.copies conflict hmem hboth
  rw [onServer_iff, hdone.entryAt_eq] at hserver
  have hstays : ∀ action, Own plan resolutions action →
      action.path = conflictCopyPath conflict.path → action.kind ≠ .deleteRemote := by
    intro action hown hpath hkind
    obtain ⟨hash, hgone⟩ := gated_of_own_delete hideal hhonest hfits hown hkind
    rw [hpath, hserver] at hgone
    cases hgone
  refine ⟨?_, ?_, hstays, ?_⟩
  · intro file hfile
    by_contra hnot
    obtain ⟨hother, hgiven⟩ := not_or.mp hnot
    have hsame := hkeeps.spares _ file hfile hgiven
    rw [hcontent] at hsame
    exact hother (Option.some.inj hsame ▸ htext)
  · cases hrow : remoteAt context world.server (conflictCopyPath conflict.path) with
    | none => exact Or.inl rfl
    | some row =>
        right
        by_cases hown : ∃ action, Own plan resolutions action ∧
            action.path = conflictCopyPath conflict.path
        · obtain ⟨action, haction, hpath⟩ := hown
          right
          refine ⟨action, haction, hpath, ?_⟩
          rcases (hfits.own haction).side with ⟨hkind, _⟩ | ⟨hkind, _⟩
          · exact hkind
          · exact absurd hkind (hstays action haction hpath)
        · left
          refine ⟨text, htext, ?_⟩
          rw [onServer_iff, ← hserver]
          exact (gated_of_no_own hideal hhonest hrow
            fun action haction hpath => hown ⟨action, haction, hpath⟩).symm
  · intro earlier later hsplit other hother hpath hremote
    by_contra hlive
    have hnone := @contentsAfter_of_dropped context plan resolutions world hfits hkeeps.apart
      conflict other earlier later hsplit hboth hother hpath hremote (by simpa using hlive)
    rw [← hdone.contents_eq, hcontent] at hnone
    cases hnone

include hideal hhonest hdone in
/-- What the server has stays there, unless the user replaces it or it is kept beside
the local version. -/
theorem OnServer.stays {path : String} {text : Bytes}
    (htext : OnServer context world.server path text) (hreplaced : ¬ Replaces plan resolutions path)
    (hboth : ¬ ∃ conflict ∈ plan.conflicts, conflict.path = path ∧
      choiceOf resolutions conflict = some .keepBoth) :
    OnServer context after.server path text := by
  have hnone : ∀ action, Own plan resolutions action → action.path ≠ path := by
    intro action hown hpath
    rcases hown with hplanned | ⟨conflict, hmem, hlocal | hchoice, rfl⟩
    · exact hreplaced (Or.inl ⟨action, hplanned, hpath⟩)
    · exact hreplaced (Or.inr ⟨conflict, hmem, hpath, hlocal⟩)
    · exact hboth ⟨conflict, hmem, hpath, hchoice⟩
  obtain ⟨row, hrow, _⟩ := id htext
  rw [onServer_iff, hdone.entryAt_eq, gated_of_no_own hideal hhonest hrow hnone]
  exact onServer_iff.mp htext

include hideal hhonest hfits hdone in
/-- With room for every copy both are kept. -/
theorem KeepsBoth.of_hasRoom (hapart : Apart plan resolutions)
    (hroom : ∀ conflict ∈ plan.conflicts, choiceOf resolutions conflict = some .keepBoth →
      HasRoom context plan resolutions world conflict) :
    KeepsBoth context plan resolutions world after := by
  refine ⟨?_, hapart, ?_, ?_, ?_⟩
  · intro path file hfile hgiven
    rw [hdone.contents_eq]
    exact contentsAfter_of_file hroom hfile hgiven
  · intro path text htext hreplaced
    by_cases hboth : ∃ conflict ∈ plan.conflicts, conflict.path = path ∧
        choiceOf resolutions conflict = some .keepBoth
    · obtain ⟨conflict, hmem, rfl, hchoice⟩ := hboth
      left
      refine ⟨conflictCopyPath conflict.path, ?_⟩
      rw [hdone.contents_eq]
      exact contentsAfter_of_copy hfits hapart hroom hmem hchoice htext
    · exact Or.inr ⟨path, htext.stays hideal hhonest hdone hreplaced hboth⟩
  · intro conflict hmem hboth
    obtain ⟨file, hfile, _⟩ := hfits.local_file hmem hboth
    obtain ⟨hcontent, hgated⟩ := gated_of_kept hfits hroom hmem hboth hfile
    refine ⟨file, hfile, ?_, ?_⟩
    · rw [hdone.contents_eq]
      exact hcontent
    · rw [onServer_iff, hdone.entryAt_eq]
      exact hgated
  · intro conflict hmem hboth
    obtain ⟨text, htext⟩ := hfits.remote_text hhonest hmem hboth
    refine ⟨text, htext, ?_, ?_⟩
    · rw [hdone.contents_eq]
      exact contentsAfter_of_copy hfits hapart hroom hmem hboth htext
    · rw [onServer_iff, hdone.entryAt_eq]
      exact gated_of_copy hfits hapart hroom hmem hboth htext

end Done

/-- A round on which nobody else acts and in which nothing fails keeps both exactly
when the copies are different files and each has room. -/
theorem keepBoth_keeps_both_iff (hideal : context.Ideal) (hhonest : Honest context world.server)
    (hfits : Fits context plan world)
    (hvalid : ∀ conflict ∈ plan.conflicts,
      Server.validPath (context.crypto.pathToken (conflictCopyPath conflict.path)) = true)
    {choose : String → ConflictResolutionChoice} {result : SyncResult} {after : World}
    (hrun : Reaches (Undisturbed context choose false)
      (completeSync context.crypto plan resolutions) world (.pure (.ok result)) after) :
    KeepsBoth context plan resolutions world after ↔
      Apart plan resolutions ∧ ∀ conflict ∈ plan.conflicts,
        choiceOf resolutions conflict = some .keepBoth →
          HasRoom context plan resolutions world conflict := by
  have hplain : ∀ conflict ∈ plan.conflicts, Plain conflict.path := fun conflict hmem =>
    (hfits.brings (conflictToUpload conflict) (Or.inr ⟨conflict, hmem, rfl⟩)).plain
  have hdone := doneBy_of_reaches hideal hhonest.member hplain (hfits.sendable hvalid) hrun
  constructor
  · intro hkeeps
    exact ⟨hkeeps.apart, fun _ hmem hboth => hkeeps.hasRoom hideal hhonest hfits hdone hmem hboth⟩
  · intro hcondition
    exact .of_hasRoom hideal hhonest hfits hdone hcondition.1 hcondition.2

end Round

/-! ## A conflict, with and without a file in the way -/

/-- Another device has uploaded an `a`. -/
def otherUpload : Eff (Except SyncEngineError (SyncPlan × SyncResult)) × World :=
  exec (handle sampleContext) (cycle .sample .defaults) (List.replicate 17 {})
    (emptyWorld.edit (oneFile "a" [2]))

/-- A device with files of its own that never saw the server's. -/
def firstVisit (folder : Folder) : World where
  device := { folder, base := ∅, cache := none }
  server := otherUpload.2.server

theorem firstVisit_sound {folder : Folder} (hnamed : ∀ path file, folder[path]? = some file →
    Plain path ∧ Server.validPath (sampleContext.crypto.pathToken path) = true) :
    Sound sampleContext (firstVisit folder) := by
  have hstart : Sound sampleContext (emptyWorld.edit (oneFile "a" [2])) :=
    (emptyWorld_sound rfl).edit (oneFile_named _ ⟨by decide, by decide⟩)
  have hruns : otherUpload.1.result?.isSome = true ∧
      Prog.execAll (handle sampleContext)
        (undisturbedHere sampleContext (fun _ => .keepLocal) false)
        (cycle .sample .defaults) (List.replicate 17 {})
          (emptyWorld.edit (oneFile "a" [2])) = true := by
    decide +kernel
  obtain ⟨value, hvalue⟩ := Option.isSome_iff_exists.mp hruns.1
  have hrun :
    Reaches (Undisturbed sampleContext (fun _ => .keepLocal) false) (cycle .sample .defaults)
      (emptyWorld.edit (oneFile "a" [2])) (.pure value) otherUpload.2 :=
    Prog.exec_reaches_pure undisturbed_of_check hruns.2 hvalue
  have hholds : Holds (quietAll sampleContext (fun _ => .keepLocal) false fun path =>
      ((emptyWorld.edit (oneFile "a" [2])).view sampleContext path).goal sampleContext
        (fun _ => .keepLocal) path) _ (cycle sampleContext.crypto sampleContext.ignore) _ :=
    holds_cycle sampleContext_ideal (fun _ => Or.inl rfl) hstart fun _ => rfl
  obtain ⟨_, _, _, _, hcompleted⟩ := hholds.reaches (fun _ => rfl) hrun
  intro path
  have hsound := hcompleted.sound path
  refine ⟨hsound.member, hsound.noStrays, hsound.row, hnamed path, ?_⟩
  intro cache etag hcache
  cases hcache

/-- It prepares, and keeps both versions of `a`. -/
def visitPrepared (folder : Folder) : Eff (Except SyncEngineError SyncPlan) × World :=
  exec (handle sampleContext) (prepareSync .sample .defaults) (List.replicate 10 {})
    (firstVisit folder)

def visitPlan (folder : Folder) : SyncPlan :=
  ((visitPrepared folder).1.result?.bind Except.toOption).getD ⟨[], [], [], []⟩

def visitDone (folder : Folder) : Eff (Except SyncEngineError SyncResult) × World :=
  exec (handle sampleContext) (completeSync .sample (visitPlan folder) [⟨"a", .keepBoth⟩])
    (List.replicate 20 {}) (visitPrepared folder).2

def visitResult (folder : Folder) : SyncResult :=
  ((visitDone folder).1.result?.bind Except.toOption).getD ⟨[], [], [], [], none⟩

/-- Both runs come to their end, with nothing failing and nobody else acting. -/
def visitRuns (folder : Folder) : Prop :=
  (visitPrepared folder).1.result? = some (.ok (visitPlan folder)) ∧
  Prog.execAll (handle sampleContext) (undisturbedHere sampleContext (fun _ => .keepLocal) false)
    (prepareSync .sample .defaults) (List.replicate 10 {}) (firstVisit folder) = true ∧
  (visitDone folder).1.result? = some (.ok (visitResult folder)) ∧
  Prog.execAll (handle sampleContext) (undisturbedHere sampleContext (fun _ => .keepLocal) false)
    (completeSync .sample (visitPlan folder) [⟨"a", .keepBoth⟩]) (List.replicate 20 {})
    (visitPrepared folder).2 = true

instance (folder : Folder) : Decidable (visitRuns folder) := by
  unfold visitRuns
  infer_instance

theorem visit_prepares {folder : Folder} (hruns : visitRuns folder) :
    Reaches (Undisturbed sampleContext (fun _ => .keepLocal) false)
      (prepareSync sampleContext.crypto sampleContext.ignore) (firstVisit folder)
      (.pure (.ok (visitPlan folder))) (visitPrepared folder).2 :=
  Prog.exec_reaches_pure undisturbed_of_check hruns.2.1 hruns.1

theorem visit_completes {folder : Folder} (hruns : visitRuns folder) :
    Reaches (Undisturbed sampleContext (fun _ => .keepLocal) false)
      (completeSync sampleContext.crypto (visitPlan folder) [⟨"a", .keepBoth⟩])
      (visitPrepared folder).2 (.pure (.ok (visitResult folder))) (visitDone folder).2 :=
  Prog.exec_reaches_pure undisturbed_of_check hruns.2.2.2 hruns.2.2.1

theorem conflict_of_sample_keeps_both :
    KeepsBoth sampleContext (visitPlan (oneFile "a" [1])) [⟨"a", .keepBoth⟩]
      (visitPrepared (oneFile "a" [1])).2 (visitDone (oneFile "a" [1])).2 := by
  have hfacts : visitRuns (oneFile "a" [1]) ∧
      (visitPlan (oneFile "a" [1])).conflicts.map Conflict.path = ["a"] ∧
      (visitPlan (oneFile "a" [1])).upload = [] ∧
      (visitPrepared (oneFile "a" [1])).2.device.folder["a.conflict"]? = none ∧
      remoteAt sampleContext (visitPrepared (oneFile "a" [1])).2.server "a.conflict" = none := by
    decide +kernel
  obtain ⟨hruns, hpaths, huploads, hfile, hrow⟩ := hfacts
  obtain ⟨hfits, hhonest⟩ := fits_of_prepareSync sampleContext_ideal
    (firstVisit_sound (oneFile_named _ ⟨by decide, by decide⟩)) (visit_prepares hruns)
  have hpath : ∀ conflict ∈ (visitPlan (oneFile "a" [1])).conflicts, conflict.path = "a" := by
    intro conflict hmem
    have hlisted := List.mem_map_of_mem (f := Conflict.path) hmem
    rw [hpaths] at hlisted
    exact List.mem_singleton.mp hlisted
  have hcopy : conflictCopyPath "a" = "a.conflict" := by decide
  apply (keepBoth_keeps_both_iff sampleContext_ideal hhonest hfits ?_ (visit_completes hruns)).mpr
  · refine ⟨?_, ?_⟩
    · intro first hfirst second hsecond _ _ _
      exact hfits.conflict_eq hfirst hsecond
        ((hpath first hfirst).trans (hpath second hsecond).symm)
    · intro conflict hmem _
      have hother : ∀ other ∈ (visitPlan (oneFile "a" [1])).conflicts,
          other.path ≠ "a.conflict" := by
        intro other hmem heq
        rw [hpath other hmem] at heq
        exact absurd heq (by decide)
      constructor
      all_goals rw [hpath conflict hmem, hcopy]
      · intro file hfound
        rw [hfile] at hfound
        cases hfound
      · exact Or.inl hrow
      · intro action hown heq
        rcases hown with hplanned | ⟨other, hmem, _, rfl⟩
        · rw [huploads] at hplanned
          cases hplanned
        · exact absurd heq (hother other hmem)
      · intro earlier later hsplit other hlater heq
        have hmem : other ∈ (visitPlan (oneFile "a" [1])).conflicts := by
          rw [hsplit]
          exact List.mem_append_right _ (List.mem_cons_of_mem _ hlater)
        exact absurd heq (hother other hmem)
  · intro conflict hmem
    rw [hpath conflict hmem]
    decide

/-- A file that the user happens to have under the name of the copy. -/
def inTheWay : Folder := (oneFile "a" [1]).insert "a.conflict" ⟨[9], 1⟩

/-- The copy takes the place of the user's file, whose content is nowhere afterwards. -/
theorem copy_overwrites_file_in_the_way :
    ¬ ∀ context : Context, context.Ideal → ∀ start plan world,
      Sound context start → Reaches (Undisturbed context (fun _ => .keepLocal) false)
        (prepareSync context.crypto context.ignore) start (.pure (.ok plan)) world →
      ∀ resolutions result after, Reaches (Undisturbed context (fun _ => .keepLocal) false)
        (completeSync context.crypto plan resolutions) world (.pure (.ok result)) after →
      KeepsBoth context plan resolutions world after := by
  intro hall
  have hfacts : visitRuns inTheWay ∧
      (visitPrepared inTheWay).2.device.folder["a.conflict"]? = some ⟨[9], 1⟩ ∧
      (∀ conflict ∈ (visitPlan inTheWay).conflicts, conflict.path = "a") ∧
      contents (visitDone inTheWay).2.device.folder "a.conflict" = some [2] := by
    decide +kernel
  obtain ⟨hruns, hfile, hpath, hover⟩ := hfacts
  have hnamed : ∀ path file, inTheWay[path]? = some file →
      Plain path ∧ Server.validPath (sampleContext.crypto.pathToken path) = true := by
    intro path file hfound
    have hmem := Std.ExtTreeMap.mem_toList_iff_getElem?_eq_some.mpr hfound
    have hgood : ∀ item ∈ inTheWay.toList, Plain item.1 ∧
        Server.validPath (sampleContext.crypto.pathToken item.1) = true := by decide
    exact hgood (path, file) hmem
  have hkeeps := hall sampleContext sampleContext_ideal _ _ _ (firstVisit_sound hnamed)
    (visit_prepares hruns) _ _ _ (visit_completes hruns)
  have hsame := hkeeps.spares "a.conflict" ⟨[9], 1⟩ hfile (by
    rintro ⟨conflict, hmem, heq, _⟩
    rw [hpath conflict hmem] at heq
    exact absurd heq (by decide))
  rw [hover] at hsame
  exact absurd hsame (by decide)

end ObSink.Engine
