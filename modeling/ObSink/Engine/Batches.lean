import ObSink.Engine.Frame

/-! # One path through the upload batches

The upload phase seals the members of a batch, sends it, and accounts the
results. The rule follows the actions on one path, in order: `state` says what
holds with the given actions still to come, and whether one was refused.
-/

namespace ObSink.Engine

open Prog (Setting Holds Within perform holds_bind holds_perform holds_pure within_bind within_pure
  within_perform within_trivial)

/-! ## What a finished upload phase says -/

/-- Nothing is reported about a path that is not held back, and what was held
back from the start stays so. -/
structure UploadOutcome.Accounted (held : List String) (outcome : UploadOutcome) : Prop where
  held : ∀ path ∈ held, path ∈ outcome.holdBack
  failures : ∀ failure ∈ outcome.failures, failure.path ∈ outcome.holdBack
  lateConflicts : ∀ conflict ∈ outcome.lateConflicts, conflict.path ∈ outcome.holdBack

/-- What accounting for one action can do. -/
inductive UploadOutcome.Notes (action : SyncAction) (outcome : UploadOutcome) : UploadOutcome → Prop
  | done : Notes action outcome { outcome with succeeded := outcome.succeeded + 1 }
  | failed (message : String) (fatal : Bool) :
      Notes action outcome (outcome.fail action message fatal)
  | refused (remote : FileEntry) :
      Notes action outcome
        { outcome with
          holdBack := outcome.holdBack ++ [action.path]
          lateConflicts := outcome.lateConflicts ++
            [⟨action.path, action.localEntry.getD {}, remote⟩] }

/-- What accounting for some of the actions, one by one, can lead to. -/
def UploadOutcome.After (actions : List SyncAction) : UploadOutcome → UploadOutcome → Prop :=
  Relation.ReflTransGen fun outcome next => ∃ action ∈ actions, outcome.Notes action next

theorem UploadOutcome.After.note {actions : List SyncAction} {start outcome next : UploadOutcome}
    (hafter : start.After actions outcome) {action : SyncAction} (hmem : action ∈ actions)
    (hnotes : outcome.Notes action next) : start.After actions next :=
  hafter.tail ⟨action, hmem, hnotes⟩

theorem accountResult_notes (outcome : UploadOutcome) (action : SyncAction)
    (result : BatchOperationResult) :
    outcome.Notes action (accountResult outcome action result).1 := by
  unfold accountResult
  split
  next => exact .done
  next =>
    split
    next => exact .refused _
    next => exact .failed _ _

theorem UploadOutcome.After.accountAll {actions : List SyncAction} {start outcome : UploadOutcome}
    (hafter : start.After actions outcome) {pairs : List (SyncAction × BatchOperationResult)}
    (hpairs : ∀ pair ∈ pairs, pair.1 ∈ actions) :
    start.After actions (accountResults pairs outcome).1 := by
  induction pairs generalizing outcome with
  | nil => exact hafter
  | cons pair rest ih =>
      apply ih (hafter.note (hpairs pair (by simp)) (accountResult_notes outcome pair.1 pair.2))
      intro later hlater
      exact hpairs later (List.mem_cons_of_mem _ hlater)

theorem UploadOutcome.After.failAll {actions : List SyncAction} {start outcome : UploadOutcome}
    (hafter : start.After actions outcome) {members : List (SyncAction × BatchOp)}
    (hmembers : ∀ member ∈ members, member.1 ∈ actions) (message : String) (fatal : Bool) :
    start.After actions
      (members.foldl (fun outcome member => outcome.fail member.1 message fatal) outcome) := by
  induction members generalizing outcome with
  | nil => exact hafter
  | cons member rest ih =>
      apply ih (hafter.note (hmembers member (by simp)) (.failed message fatal))
      intro later hlater
      exact hmembers later (List.mem_cons_of_mem _ hlater)

theorem prepareBatchOp_seals {all : List SyncAction} {action : SyncAction} (hmem : action ∈ all) :
    Within (Effect.Seals all) (fun _ => True) (prepareBatchOp action) := by
  unfold prepareBatchOp
  cases hkind : action.kind with
  | upload =>
      simp only [within_bind, within_perform]
      refine ⟨⟨action, hmem, hkind, rfl⟩, fun reply => ?_⟩
      cases reply <;> trivial
  | download => trivial
  | deleteLocal => trivial
  | deleteRemote => trivial

/-- A batch request: these operations, or none. -/
def Effect.Sends (ops : List BatchOp) : Effect → Prop
  | .applyOp op => op ∈ ops
  | .sendBatch | .receiveBatch | .readBatch => True
  | _ => False

theorem Effect.Sends.seals {ops : List BatchOp} {effect : Effect} (hsends : effect.Sends ops)
    (uploads : List SyncAction) : effect.Seals uploads := by
  cases effect with
  | applyOp op => trivial
  | sendBatch => trivial
  | receiveBatch => trivial
  | readBatch => trivial
  | _ => exact hsends.elim

theorem applyOperations_sends {ops all : List BatchOp} (hall : ops ⊆ all) :
    Within (Effect.Sends all) (fun _ => True) (applyOperations ops) := by
  induction ops with
  | nil => trivial
  | cons op rest ih =>
      have hrest := ih fun later hlater => hall (List.mem_cons_of_mem _ hlater)
      rw [applyOperations, within_bind, within_perform]
      refine ⟨hall List.mem_cons_self, ?_⟩
      intro reply
      split
      next => trivial
      next =>
        rw [within_bind]
        apply hrest.mono
        intro results _
        cases results with
        | ok results => trivial
        | error error => trivial

theorem sendBatchOnce_sends (ops : List BatchOp) :
    Within (Effect.Sends ops) (fun _ => True) (sendBatchOnce ops) := by
  rw [sendBatchOnce, within_bind, within_perform]
  refine ⟨trivial, ?_⟩
  intro sent
  cases sent with
  | error error => trivial
  | ok sent =>
      rw [within_bind]
      apply (applyOperations_sends (List.Subset.refl ops)).mono
      intro answer _
      rw [within_bind, within_perform]
      refine ⟨trivial, ?_⟩
      intro received
      cases received with
      | error error => trivial
      | ok received =>
          cases answer with
          | error error => trivial
          | ok results =>
              rw [within_bind, within_perform]
              refine ⟨trivial, ?_⟩
              intro read
              cases read with
              | error error => trivial
              | ok read =>
                  simp only
                  split <;> trivial

theorem batch_sends (ops : List BatchOp) (attempts : Nat) :
    Within (Effect.Sends ops) (fun _ => True) (batch ops attempts) := by
  induction attempts with
  | zero => trivial
  | succ attempts ih =>
      rw [batch, within_bind]
      apply (sendBatchOnce_sends ops).mono
      intro answer _
      rcases answer with error | answer
      · simp only
        split
        next => trivial
        next => exact ih
      · trivial

/-- Preparing a batch accounts for the members it cannot send. -/
theorem prepareBatch_after {all actions : List SyncAction} (hall : actions ⊆ all)
    {start outcome : UploadOutcome} (hafter : start.After all outcome) :
    Within (Effect.Seals all)
      (fun prepared => (∀ member ∈ prepared.1, member.1 ∈ all) ∧ start.After all prepared.2)
      (prepareBatch actions outcome) := by
  induction actions generalizing outcome with
  | nil => exact ⟨by simp, hafter⟩
  | cons action rest ih =>
      have hmem : action ∈ all := hall (by simp)
      have hrest : rest ⊆ all := fun later hlater => hall (List.mem_cons_of_mem _ hlater)
      rw [prepareBatch, within_bind]
      refine (prepareBatchOp_seals hmem).mono ?_
      intro reply _
      rcases reply with error | _ | op
      · exact ih hrest (hafter.note hmem (.failed error.text false))
      · exact ih hrest (hafter.note hmem .done)
      · simp only [within_bind, within_pure]
        refine (ih hrest hafter).mono ?_
        intro prepared hprepared
        refine ⟨?_, hprepared.2⟩
        intro member hmember
        rcases List.mem_cons.mp hmember with rfl | hlater
        · exact hmem
        · exact hprepared.1 member hlater

theorem runBatch_after {all actions : List SyncAction} (hall : actions ⊆ all)
    {start outcome : UploadOutcome} (hafter : start.After all outcome) :
    Within (Effect.Seals all) (fun done => start.After all done.1) (runBatch actions outcome) := by
  rw [runBatch, within_bind]
  refine (prepareBatch_after hall hafter).mono ?_
  rintro ⟨members, prepared⟩ ⟨hmembers, hprepared⟩
  simp only
  split
  next => exact hprepared
  next =>
    rw [within_bind]
    apply ((batch_sends _ _).weaken fun _ hsends => hsends.seals all).mono
    intro reply _
    cases reply with
    | error error => exact hprepared.failAll hmembers error.text (isFatalApiError error)
    | ok results =>
        apply hprepared.accountAll
        intro pair hpair
        obtain ⟨member, hmember, hsame⟩ := List.mem_map.mp (List.of_mem_zip hpair).1
        exact hsame ▸ hmembers member hmember

/-- A batch is made of uploads. -/
theorem batches_subset {uploads : List SyncAction} :
    ∀ actions ∈ batches uploads, actions ⊆ uploads := by
  intro actions hactions action haction
  have hflat := chunkUploads_flatMap uploads
    fun action => (action.localEntry.map FileEntry.size).getD 0
  rw [← hflat, List.mem_flatMap]
  obtain ⟨range, hrange, rfl⟩ := List.mem_map.mp hactions
  exact ⟨range, hrange, haction⟩

/-- Every step of the upload phase accounts for one of the uploads. -/
theorem runUploads_after (uploads : List SyncAction) (held : List String) :
    Within (Effect.Seals uploads) (UploadOutcome.After uploads ⟨0, [], [], held⟩)
      (runUploads uploads held) := by
  have hloop : ∀ (groups : List (List SyncAction)) (outcome : UploadOutcome),
      (∀ actions ∈ groups, actions ⊆ uploads) →
      UploadOutcome.After uploads ⟨0, [], [], held⟩ outcome →
      Within (Effect.Seals uploads) (UploadOutcome.After uploads ⟨0, [], [], held⟩)
        (runBatches groups outcome) := by
    intro groups
    induction groups with
    | nil => exact fun outcome _ hafter => hafter
    | cons actions rest ih =>
        intro outcome hgroups hafter
        rw [runBatches, within_bind]
        refine (runBatch_after (hgroups actions (by simp)) hafter).mono ?_
        rintro ⟨done, stop⟩ hdone
        cases stop with
        | true => exact hdone
        | false =>
            apply ih done _ hdone
            intro later hlater
            exact hgroups later (List.mem_cons_of_mem _ hlater)
  exact hloop (batches uploads) ⟨0, [], [], held⟩ batches_subset .refl

theorem UploadOutcome.Accounted.notes {held : List String} {outcome next : UploadOutcome}
    {action : SyncAction} (haccounted : outcome.Accounted held)
    (hnotes : outcome.Notes action next) :
    next.Accounted held := by
  obtain ⟨hheld, hfailures, hlate⟩ := haccounted
  cases hnotes with
  | done => exact ⟨hheld, hfailures, hlate⟩
  | failed message fatal =>
      refine ⟨fun path hpath => List.mem_append_left _ (hheld path hpath), ?_,
        fun conflict hconflict => List.mem_append_left _ (hlate conflict hconflict)⟩
      intro failure hfailure
      rcases List.mem_append.mp hfailure with hold | hnew
      · exact List.mem_append_left _ (hfailures failure hold)
      · rw [List.mem_singleton.mp hnew]
        exact List.mem_append_right _ (by simp)
  | refused remote =>
      refine ⟨fun path hpath => List.mem_append_left _ (hheld path hpath),
        fun failure hfailure => List.mem_append_left _ (hfailures failure hfailure), ?_⟩
      intro conflict hconflict
      rcases List.mem_append.mp hconflict with hold | hnew
      · exact List.mem_append_left _ (hlate conflict hold)
      · rw [List.mem_singleton.mp hnew]
        exact List.mem_append_right _ (by simp)

theorem runUploads_accounted (uploads : List SyncAction) (held : List String) :
    Within (Effect.Seals uploads) (UploadOutcome.Accounted held) (runUploads uploads held) := by
  refine (runUploads_after uploads held).mono ?_
  intro outcome hafter
  induction hafter with
  | refl => exact ⟨fun path hpath => hpath, by simp, by simp⟩
  | tail _ hstep ih =>
      obtain ⟨action, _, hnotes⟩ := hstep
      exact ih.notes hnotes

/-- Only what was held back from the start, and uploads, end up held back. -/
theorem UploadOutcome.After.holdBack {actions : List SyncAction} {start outcome : UploadOutcome}
    (hafter : start.After actions outcome) {path : String} (hpath : path ∈ outcome.holdBack) :
    path ∈ start.holdBack ∨ path ∈ actions.map SyncAction.path := by
  induction hafter with
  | refl => exact Or.inl hpath
  | tail _ hstep ih =>
      obtain ⟨action, hmem, hnotes⟩ := hstep
      have hown : action.path ∈ actions.map SyncAction.path := List.mem_map.mpr ⟨action, hmem, rfl⟩
      cases hnotes with
      | done => exact ih hpath
      | failed message fatal =>
          rcases List.mem_append.mp hpath with hold | hnew
          · exact ih hold
          · exact Or.inr (List.mem_singleton.mp hnew ▸ hown)
      | refused remote =>
          rcases List.mem_append.mp hpath with hold | hnew
          · exact ih hold
          · exact Or.inr (List.mem_singleton.mp hnew ▸ hown)

/-- A member of a batch is read and sealed, or cannot be. -/
theorem prepareBatchOp_within {path : String} (action : SyncAction) (hother : action.path ≠ path) :
    Within (Effect.Elsewhere path)
      (fun reply => ∀ op, reply = .ok (some op) → op.path = action.path)
      (prepareBatchOp action) := by
  unfold prepareBatchOp
  cases action.kind with
  | upload =>
      simp only [within_bind, within_perform]
      refine ⟨hother, fun reply => ?_⟩
      cases reply with
      | ok content =>
          intro op hop
          obtain rfl := Option.some.inj (Except.ok.inj hop)
          rfl
      | error error => exact fun op hop => by cases hop
  | download => exact fun op hop => by cases hop
  | deleteLocal => exact fun op hop => by cases hop
  | deleteRemote =>
      intro op hop
      obtain rfl := Option.some.inj (Except.ok.inj hop)
      rfl

/-! ## The actions on one path -/

section Rules

variable {World : Type} (setting : Setting Effect Effect.Reply World) (path : String)

/-- Requests arrive and are answered; the server has no failure of its own. -/
structure QuietNetwork : Prop where
  send : ∀ before reply after, setting.performs .sendBatch before reply after → reply = .ok ()
  receive : ∀ before reply after, setting.performs .receiveBatch before reply after →
    reply = .ok ()
  read : ∀ before reply after, setting.performs .readBatch before reply after → reply = .ok ()
  refusal : ∀ op before error after, setting.performs (.applyOp op) before (.error error) after →
    (∀ message, error ≠ .internal message) ∧
      ¬(200 ≤ error.statusCode ∧ error.statusCode ≤ 299)

/-- The state after an operation on the path was answered. -/
def answered {World : Type} (state : Bool → World → Prop) (refused : Bool) :
    Except Server.ApiError Server.Outcome → World → Prop
  | .ok _ => state refused
  | .error _ => state true

/-- How the actions on a path take it from one state to the next. `fact` is
what is known of a sealed content. -/
structure UploadRule (fact : SyncAction → Bytes → Prop)
    (state : List SyncAction → Bool → World → Prop) : Prop where
  stable : ∀ rest refused, Stable setting path (state rest refused)
  sealed : ∀ left action right refused, action.path = path → action.kind = .upload →
    setting.Triple (.sealFile path) (state (left ++ action :: right) refused) fun reply world =>
      match reply with
      | .ok content => fact action content ∧ state (left ++ action :: right) refused world
      | .error _ => state (left ++ right) true world
  put : ∀ action rest refused content, action.path = path → action.kind = .upload →
    fact action content →
    setting.Triple (.applyOp (.put path (parentHash action)
      ((action.localEntry.map FileEntry.hash).getD "") content)) (state (action :: rest) refused)
      (answered (state rest) refused)
  delete : ∀ action rest refused, action.path = path → action.kind = .deleteRemote →
    setting.Triple (.applyOp (.delete path (parentHash action))) (state (action :: rest) refused)
      (answered (state rest) refused)

/-- The actions on the path. -/
def mine (actions : List SyncAction) : List SyncAction :=
  actions.filter fun action => action.path = path

/-- A member of a batch with the operation made of it. -/
structure Prepared (fact : SyncAction → Bytes → Prop) (member : SyncAction × BatchOp) : Prop where
  path_eq : member.2.path = member.1.path
  plain : Plain member.1.path
  own : member.1.path = path →
    (member.1.kind = .upload ∧ ∃ content, fact member.1 content ∧
      member.2 = .put path (parentHash member.1)
        ((member.1.localEntry.map FileEntry.hash).getD "") content) ∨
    (member.1.kind = .deleteRemote ∧ member.2 = .delete path (parentHash member.1))

/-- Whether the path is held back: it was from the start, or was refused. -/
def Marks (held : List String) (outcome : UploadOutcome) (refused : Bool) : Prop :=
  path ∈ outcome.holdBack ↔ path ∈ held ∨ refused = true

/-- A result that is not a success. -/
def refuses (result : BatchOperationResult) : Bool :=
  !(200 ≤ result.status && result.status ≤ 299)

/-- One of the results refuses an action on the path. -/
def anyRefused (pairs : List (SyncAction × BatchOperationResult)) : Bool :=
  pairs.any fun pair => pair.1.path = path && refuses pair.2

variable {setting path}

@[simp] theorem mine_nil : mine path [] = [] := rfl

theorem mine_cons_self {action : SyncAction} (hpath : action.path = path) (rest : List SyncAction) :
    mine path (action :: rest) = action :: mine path rest := by
  simp [mine, hpath]

theorem mine_cons_of_ne {action : SyncAction} (hother : action.path ≠ path)
    (rest : List SyncAction) : mine path (action :: rest) = mine path rest := by
  simp [mine, hother]

theorem mine_append (first second : List SyncAction) :
    mine path (first ++ second) = mine path first ++ mine path second := by
  simp [mine]

theorem Marks.fail_self {held : List String} {outcome : UploadOutcome} {action : SyncAction}
    (hpath : action.path = path) (message : String) (fatal : Bool) :
    Marks path held (outcome.fail action message fatal) true := by
  simp [Marks, UploadOutcome.fail, hpath]

theorem Marks.fail_other {held : List String} {outcome : UploadOutcome} {refused : Bool}
    (hmarks : Marks path held outcome refused) {action : SyncAction}
    (hother : action.path ≠ path) (message : String) (fatal : Bool) :
    Marks path held (outcome.fail action message fatal) refused := by
  simp only [Marks, UploadOutcome.fail, List.mem_append, List.mem_singleton, Ne.symm hother,
    or_false] at hmarks ⊢
  exact hmarks

section Uploads

variable {fact : SyncAction → Bytes → Prop} {state : List SyncAction → Bool → World → Prop}

/-- Sealing the members of a batch. Those of the path that were sealed before
are `left`, those of later batches `later`. -/
theorem UploadRule.holds_prepareBatch (hrule : UploadRule setting path fact state)
    {held : List String} {actions : List SyncAction}
    (hplain : ∀ action ∈ actions, Plain action.path)
    (hkinds : ∀ action ∈ actions, action.path = path →
      action.kind = .upload ∨ action.kind = .deleteRemote)
    {left later : List SyncAction} {outcome : UploadOutcome} {refused : Bool} {world : World}
    (hmarks : Marks path held outcome refused)
    (hstate : state (left ++ (mine path actions ++ later)) refused world) :
    Holds setting (fun prepared world => ∃ refused,
      state (left ++ (mine path (prepared.1.map Prod.fst) ++ later)) refused world ∧
        Marks path held prepared.2 refused ∧ ∀ member ∈ prepared.1, Prepared path fact member)
      (prepareBatch actions outcome) world := by
  induction actions generalizing left outcome refused world with
  | nil => exact ⟨refused, hstate, hmarks, by simp⟩
  | cons action rest ih =>
      have hplain' : ∀ action ∈ rest, Plain action.path :=
        fun later hlater => hplain later (by simp [hlater])
      have hkinds' : ∀ action ∈ rest, action.path = path →
          action.kind = .upload ∨ action.kind = .deleteRemote :=
        fun later hlater => hkinds later (by simp [hlater])
      rw [prepareBatch, holds_bind]
      by_cases hpath : action.path = path
      · rw [mine_cons_self hpath] at hstate
        -- a sealed member joins those on the left
        have hsealed : ∀ op world,
          state (left ++ (action :: mine path rest ++ later)) refused world →
            Prepared path fact (action, op) →
            Holds setting (fun prepared world => ∃ refused,
              state (left ++ (mine path (prepared.1.map Prod.fst) ++ later)) refused world ∧
                Marks path held prepared.2 refused ∧
                ∀ member ∈ prepared.1, Prepared path fact member)
              (do
                let prepared ← prepareBatch rest outcome
                pure ((action, op) :: prepared.1, prepared.2)) world := by
          intro op world hstate hprepared
          have hshift : state ((left ++ [action]) ++ (mine path rest ++ later)) refused world := by
            simpa using hstate
          simp only [holds_bind, holds_pure]
          refine (ih hplain' hkinds' hmarks hshift).mono ?_
          rintro ⟨members, outcome⟩ world ⟨refused, hstate, hmarks, hmembers⟩
          refine ⟨refused, ?_, hmarks, ?_⟩
          · rw [List.map_cons, mine_cons_self hpath]
            simpa using hstate
          · rintro member (_ | ⟨_, hmember⟩)
            · exact hprepared
            · exact hmembers member hmember
        subst hpath
        rcases hkinds action (by simp) rfl with hkind | hkind
        · simp only [prepareBatchOp, hkind, holds_bind]
          refine ((hrule.sealed left action (mine _ rest ++ later) refused rfl hkind).holds
            (hrule.stable _ _).rely hstate).mono ?_
          intro reply world hreply
          cases reply with
          | ok content =>
              obtain ⟨hfact, hstate⟩ := hreply
              refine hsealed _ world hstate ⟨rfl, hplain action (by simp), ?_⟩
              exact fun _ => Or.inl ⟨hkind, content, hfact, rfl⟩
          | error error => exact ih hplain' hkinds' (Marks.fail_self rfl _ _) hreply
        · simp only [prepareBatchOp, hkind]
          refine hsealed _ world hstate ⟨rfl, hplain action (by simp), ?_⟩
          exact fun _ => Or.inr ⟨hkind, rfl⟩
      · rw [mine_cons_of_ne hpath] at hstate
        refine ((hrule.stable _ _).holds (prepareBatchOp_within action hpath) hstate).mono ?_
        rintro reply world ⟨hstate, hop⟩
        rcases reply with error | _ | op
        · exact ih hplain' hkinds' (hmarks.fail_other hpath _ _) hstate
        · exact ih hplain' hkinds' hmarks hstate
        · simp only [holds_bind, holds_pure]
          refine (ih hplain' hkinds' hmarks hstate).mono ?_
          rintro ⟨members, outcome⟩ world ⟨refused, hstate, hmarks, hmembers⟩
          refine ⟨refused, ?_, hmarks, ?_⟩
          · rwa [List.map_cons, mine_cons_of_ne hpath]
          · rintro member (_ | ⟨_, hmember⟩)
            · exact ⟨hop op rfl, hplain action (by simp), fun hsame => absurd hsame hpath⟩
            · exact hmembers member hmember

/-- What one operation of a batch does to the path, and how its answer reads. -/
theorem UploadRule.applied (hrule : UploadRule setting path fact state)
    (hquiet : QuietNetwork setting) {member : SyncAction × BatchOp}
    (hmember : Prepared path fact member) {later : List SyncAction} {refused : Bool}
    {before after : World}
    (hstate : state (mine path [member.1] ++ later) refused before)
    {reply : Except Server.ApiError Server.Outcome}
    (hperform : setting.performs (.applyOp member.2) before reply after) :
    setting.guarantee before (.applyOp member.2) reply after ∧
      match reply with
      | .ok _ => state later refused after
      | .error error => (∀ message, error ≠ .internal message) ∧
          ¬(200 ≤ error.statusCode ∧ error.statusCode ≤ 299) ∧
          state later (refused || member.1.path = path) after := by
  have hrefusal : ∀ error, reply = .error error → (∀ message, error ≠ .internal message) ∧
      ¬(200 ≤ error.statusCode ∧ error.statusCode ≤ 299) := by
    rintro error rfl
    exact hquiet.refusal member.2 before error after hperform
  by_cases hpath : member.1.path = path
  · rw [mine_cons_self hpath, mine_nil] at hstate
    have hown : setting.guarantee before (.applyOp member.2) reply after ∧
        answered (state later) refused reply after := by
      obtain ⟨action, op⟩ := member
      have hcases := hmember.own hpath
      simp only at hcases hpath
      rcases hcases with ⟨hkind, content, hfact, rfl⟩ | ⟨hkind, rfl⟩
      · exact hrule.put action later refused content hpath hkind hfact before reply after hstate
          hperform
      · exact hrule.delete action later refused hpath hkind before reply after hstate hperform
    refine ⟨hown.1, ?_⟩
    cases reply with
    | ok outcome => exact hown.2
    | error error =>
        obtain ⟨hinternal, hstatus⟩ := hrefusal error rfl
        exact ⟨hinternal, hstatus, by simpa [hpath, answered] using hown.2⟩
  · -- an operation elsewhere on the server
    rw [mine_cons_of_ne hpath, mine_nil, List.nil_append] at hstate
    have helsewhere : (Effect.applyOp member.2).Elsewhere path := by
      refine ⟨?_, ?_⟩
      · rw [hmember.path_eq]
        exact hmember.plain
      · rw [hmember.path_eq]
        exact hpath
    obtain ⟨hguarantee, hafter⟩ :=
      (hrule.stable later refused).elsewhere _ helsewhere before reply after hstate hperform
    refine ⟨hguarantee, ?_⟩
    cases reply with
    | ok outcome => exact hafter
    | error error =>
        obtain ⟨hinternal, hstatus⟩ := hrefusal error rfl
        exact ⟨hinternal, hstatus, by simpa [hpath] using hafter⟩

/-- What a batch answers with one more result in front. -/
def withResult (result : BatchOperationResult) :
    Except Server.ApiError (List BatchOperationResult) →
      Eff (Except Server.ApiError (List BatchOperationResult))
  | .error error => pure (.error error)
  | .ok results => pure (.ok (result :: results))

/-- The operations of one batch. -/
theorem UploadRule.holds_applyOperations (hrule : UploadRule setting path fact state)
    (hquiet : QuietNetwork setting) {members : List (SyncAction × BatchOp)}
    (hmembers : ∀ member ∈ members, Prepared path fact member) {later : List SyncAction}
    {refused : Bool} {world : World}
    (hstate : state (mine path (members.map Prod.fst) ++ later) refused world) :
    Holds setting (fun answer world => ∃ results, answer = .ok results ∧
      results.length = members.length ∧
      state later (refused || anyRefused path ((members.map Prod.fst).zip results)) world)
      (applyOperations (members.map Prod.snd)) world := by
  induction members generalizing refused world with
  | nil => exact ⟨[], rfl, rfl, by simpa [anyRefused] using hstate⟩
  | cons member rest ih =>
      have hrest : ∀ member ∈ rest, Prepared path fact member :=
        fun later hlater => hmembers later (by simp [hlater])
      have hsplit : state (mine path [member.1] ++ (mine path (rest.map Prod.fst) ++ later))
          refused world := by
        rw [← List.append_assoc, ← mine_append]
        exact hstate
      change Holds setting _ (applyOperations (member.2 :: rest.map Prod.snd)) world
      rw [applyOperations.eq_def, holds_bind, holds_perform]
      intro before hrely reply after hperform
      obtain ⟨hguarantee, hreply⟩ := hrule.applied hquiet (hmembers member (by simp))
        ((hrule.stable _ _).rely _ _ hrely hsplit) hperform
      refine ⟨hguarantee, ?_⟩
      -- the answer becomes one result, in front of those of the rest
      have hcontinue : ∀ (result : BatchOperationResult) (refused' : Bool),
          state (mine path (rest.map Prod.fst) ++ later) refused' after →
          refused' = (refused || (decide (member.1.path = path) && refuses result)) →
          Holds setting (fun answer world => ∃ results, answer = .ok results ∧
            results.length = (member :: rest).length ∧
            state later (refused ||
              anyRefused path (((member :: rest).map Prod.fst).zip results)) world)
            (applyOperations (rest.map Prod.snd) >>= withResult result) after := by
        rintro result refused' hafter rfl
        rw [holds_bind]
        refine (ih hrest hafter).mono ?_
        rintro answer world ⟨results, rfl, hlength, hworld⟩
        refine ⟨result :: results, rfl, by simp [hlength], ?_⟩
        simpa [anyRefused, Bool.or_assoc] using hworld
      cases reply with
      | ok outcome => exact hcontinue _ refused hreply (by simp [refuses])
      | error error =>
          obtain ⟨hinternal, hstatus, hafter⟩ := hreply
          cases error with
          | internal message => exact absurd rfl (hinternal message)
          | conflict conflictPath current => exact hcontinue _ _ hafter (by simp [refuses])
          | status code message =>
              refine hcontinue _ _ hafter ?_
              have hrefuses : refuses ⟨member.2.path, code, none⟩ = true := by
                by_contra hnot
                simp only [refuses, Bool.not_eq_true', Bool.and_eq_false_iff,
                  decide_eq_false_iff_not, not_or, not_not] at hnot
                exact hstatus hnot
              change _ = (refused || (_ && refuses ⟨member.2.path, code, none⟩))
              rw [hrefuses, Bool.and_true]

/-- A batch on a quiet network: one attempt, a result for every operation. -/
theorem QuietNetwork.holds_batch (hquiet : QuietNetwork setting) {ops : List BatchOp}
    {pre : World → Prop} {post : List BatchOperationResult → World → Prop}
    (hpre : Stable setting path pre) (hpost : ∀ results, Stable setting path (post results))
    (hops : ∀ world, pre world → Holds setting (fun answer world => ∃ results,
      answer = .ok results ∧ results.length = ops.length ∧ post results world)
      (applyOperations ops) world)
    {world : World} (hworld : pre world) :
    Holds setting (fun answer world => ∃ results, answer = .ok results ∧
      results.length = ops.length ∧ post results world) (batch ops maxAttempts) world := by
  have honce : Holds setting (fun answer world => ∃ results, answer = .inr (.ok results) ∧
      results.length = ops.length ∧ post results world) (sendBatchOnce ops) world := by
    rw [sendBatchOnce, holds_bind, holds_perform]
    intro before hrely reply after hperform
    obtain rfl := hquiet.send before reply after hperform
    obtain ⟨hguarantee, hafter⟩ := hpre.elsewhere .sendBatch trivial before _ after
      (hpre.rely _ _ hrely hworld) hperform
    refine ⟨hguarantee, ?_⟩
    simp only [holds_bind]
    refine (hops after hafter).mono ?_
    rintro answer world ⟨results, rfl, hlength, hworld⟩
    rw [holds_perform]
    intro before hrely reply after hperform
    obtain rfl := hquiet.receive before reply after hperform
    obtain ⟨hguarantee, hafter⟩ := (hpost results).elsewhere .receiveBatch trivial before _ after
      ((hpost results).rely _ _ hrely hworld) hperform
    refine ⟨hguarantee, ?_⟩
    simp only [holds_bind]
    rw [holds_perform]
    intro before hrely reply after' hperform
    obtain rfl := hquiet.read before reply after' hperform
    obtain ⟨hguarantee, hafter'⟩ := (hpost results).elsewhere .readBatch trivial before _ after'
      ((hpost results).rely _ _ hrely hafter) hperform
    refine ⟨hguarantee, ?_⟩
    have hcount : ¬results.length ≠ ops.length := by simp [hlength]
    simp only [if_neg hcount, holds_pure]
    exact ⟨results, rfl, hlength, hafter'⟩
  rw [maxAttempts, batch, holds_bind]
  refine honce.mono ?_
  rintro answer world ⟨results, rfl, hrest⟩
  exact ⟨results, rfl, hrest⟩

theorem UploadRule.holds_batch (hrule : UploadRule setting path fact state)
    (hquiet : QuietNetwork setting) {members : List (SyncAction × BatchOp)}
    (hmembers : ∀ member ∈ members, Prepared path fact member) {later : List SyncAction}
    {refused : Bool} {world : World}
    (hstate : state (mine path (members.map Prod.fst) ++ later) refused world) :
    Holds setting (fun answer world => ∃ results, answer = .ok results ∧
      results.length = (members.map Prod.snd).length ∧
      state later (refused || anyRefused path ((members.map Prod.fst).zip results)) world)
      (batch (members.map Prod.snd) maxAttempts) world := by
  refine hquiet.holds_batch (hrule.stable _ _) (fun results => hrule.stable later _) ?_ hstate
  intro world hworld
  refine (hrule.holds_applyOperations hquiet hmembers hworld).mono ?_
  rintro answer world ⟨results, rfl, hlength, hworld⟩
  exact ⟨results, rfl, by simpa using hlength, hworld⟩

theorem Marks.account {held : List String} {outcome : UploadOutcome} {refused : Bool}
    (hmarks : Marks path held outcome refused) (action : SyncAction)
    (result : BatchOperationResult) :
    Marks path held (accountResult outcome action result).1
      (refused || (decide (action.path = path) && refuses result)) := by
  by_cases hpath : action.path = path
  · subst hpath
    unfold accountResult
    split
    next hok => simpa [refuses, hok, Marks] using hmarks
    next hbad =>
      have hrefuses : refuses result = true := by
        by_contra hnot
        simp [refuses] at hnot
        exact hbad hnot
      split
      next => simp [Marks, hrefuses]
      next => simp [Marks, hrefuses, UploadOutcome.fail]
  · simp only [hpath, decide_false, Bool.false_and, Bool.or_false]
    unfold accountResult
    split
    next => exact hmarks
    next =>
      split
      next =>
        simp only [Marks, List.mem_append, List.mem_singleton, Ne.symm hpath, or_false] at hmarks ⊢
        exact hmarks
      next => exact hmarks.fail_other hpath _ _

theorem Marks.accountAll {held : List String} {outcome : UploadOutcome} {refused : Bool}
    (hmarks : Marks path held outcome refused)
    (pairs : List (SyncAction × BatchOperationResult)) :
    Marks path held (accountResults pairs outcome).1 (refused || anyRefused path pairs) := by
  induction pairs generalizing outcome refused with
  | nil => simpa [accountResults, anyRefused] using hmarks
  | cons pair rest ih =>
      have hrest := ih (hmarks.account pair.1 pair.2)
      simpa [accountResults, anyRefused, Bool.or_assoc] using hrest

/-- A batch that stops the rest has recorded why. -/
theorem accountResults_stop (pairs : List (SyncAction × BatchOperationResult))
    (outcome : UploadOutcome) :
    (accountResults pairs outcome).2 = true ∨ outcome.failures.any SyncFailure.fatal = true →
      (accountResults pairs outcome).1.failures.any SyncFailure.fatal = true := by
  induction pairs generalizing outcome with
  | nil => simp [accountResults]
  | cons pair rest ih =>
      have hhead : (accountResult outcome pair.1 pair.2).2 = true ∨
          outcome.failures.any SyncFailure.fatal = true →
          (accountResult outcome pair.1 pair.2).1.failures.any SyncFailure.fatal = true := by
        unfold accountResult
        split
        next => simp
        next =>
          split
          next => simp
          next =>
            intro heither
            simp only [UploadOutcome.fail, List.any_append, List.any_cons, List.any_nil,
              Bool.or_false, Bool.or_eq_true]
            exact heither.symm
      intro heither
      simp only [accountResults, Bool.or_eq_true] at heither ⊢
      refine ih _ ?_
      rcases heither with (hstop | hrest) | hfatal
      · exact Or.inr (hhead (Or.inl hstop))
      · exact Or.inl hrest
      · exact Or.inr (hhead (Or.inr hfatal))

/-- One batch, with the actions of `later` still to come. -/
theorem UploadRule.holds_runBatch (hrule : UploadRule setting path fact state)
    (hquiet : QuietNetwork setting) {held : List String} {actions : List SyncAction}
    (hplain : ∀ action ∈ actions, Plain action.path)
    (hkinds : ∀ action ∈ actions, action.path = path →
      action.kind = .upload ∨ action.kind = .deleteRemote)
    {later : List SyncAction} {outcome : UploadOutcome} {refused : Bool} {world : World}
    (hmarks : Marks path held outcome refused)
    (hstate : state (mine path actions ++ later) refused world) :
    Holds setting (fun done world => ∃ refused, state later refused world ∧
      Marks path held done.1 refused ∧
      (done.2 = true → done.1.failures.any SyncFailure.fatal = true))
      (runBatch actions outcome) world := by
  rw [runBatch, holds_bind]
  refine (hrule.holds_prepareBatch hplain hkinds hmarks
    (show state ([] ++ (mine path actions ++ later)) refused world from hstate)).mono ?_
  rintro ⟨members, prepared⟩ world ⟨refused, hstate, hmarks, hmembers⟩
  simp only [List.nil_append] at hstate hmarks ⊢
  split
  next hempty =>
    rw [List.isEmpty_iff.mp hempty] at hstate
    exact ⟨refused, hstate, hmarks, by simp⟩
  next =>
    rw [holds_bind]
    refine (hrule.holds_batch hquiet hmembers hstate).mono ?_
    rintro answer world ⟨results, rfl, hlength, hstate⟩
    refine ⟨_, hstate, hmarks.accountAll _, ?_⟩
    exact fun hstop => accountResults_stop _ _ (Or.inl hstop)

theorem UploadRule.holds_runBatches (hrule : UploadRule setting path fact state)
    (hquiet : QuietNetwork setting) {held : List String} {groups : List (List SyncAction)}
    (hplain : ∀ action ∈ groups.flatten, Plain action.path)
    (hkinds : ∀ action ∈ groups.flatten, action.path = path →
      action.kind = .upload ∨ action.kind = .deleteRemote)
    {outcome : UploadOutcome} {refused : Bool} {world : World}
    (hmarks : Marks path held outcome refused)
    (hstate : state (mine path groups.flatten) refused world) :
    Holds setting (fun outcome world => ∃ rest refused, state rest refused world ∧
      Marks path held outcome refused ∧
      (rest = [] ∨ outcome.failures.any SyncFailure.fatal = true))
      (runBatches groups outcome) world := by
  induction groups generalizing outcome refused world with
  | nil => exact ⟨[], refused, hstate, hmarks, Or.inl rfl⟩
  | cons actions rest ih =>
      rw [List.flatten_cons] at hplain hkinds hstate
      rw [mine_append] at hstate
      rw [runBatches, holds_bind]
      refine (hrule.holds_runBatch hquiet
        (fun action haction => hplain action (List.mem_append_left _ haction))
        (fun action haction => hkinds action (List.mem_append_left _ haction))
        hmarks hstate).mono ?_
      rintro ⟨done, stop⟩ world ⟨refused, hstate, hmarks, hstop⟩
      cases stop with
      | true => exact ⟨_, refused, hstate, hmarks, Or.inr (hstop rfl)⟩
      | false =>
          exact ih (fun action haction => hplain action (List.mem_append_right _ haction))
            (fun action haction => hkinds action (List.mem_append_right _ haction)) hmarks hstate

/-- The whole upload phase: unless a fatal failure stopped it, every action on
the path has been answered. -/
theorem UploadRule.holds_runUploads (hrule : UploadRule setting path fact state)
    (hquiet : QuietNetwork setting) {uploads : List SyncAction}
    (hplain : ∀ action ∈ uploads, Plain action.path)
    (hkinds : ∀ action ∈ uploads, action.path = path →
      action.kind = .upload ∨ action.kind = .deleteRemote)
    (held : List String) {world : World} (hstate : state (mine path uploads) false world) :
    Holds setting (fun outcome world => ∃ rest refused, state rest refused world ∧
      Marks path held outcome refused ∧
      (rest = [] ∨ outcome.failures.any SyncFailure.fatal = true))
      (runUploads uploads held) world := by
  have hflatten : (batches uploads).flatten = uploads := by
    rw [batches, ← List.flatMap_def]
    exact chunkUploads_flatMap uploads _
  have hstart : Marks path held ⟨0, [], [], held⟩ false := by simp [Marks]
  exact hrule.holds_runBatches hquiet (by rwa [hflatten]) (by rwa [hflatten]) hstart
    (by rwa [hflatten])

end Uploads

end Rules

/-! ## A server whose refusals are all about one file -/

section Mild

variable {World : Type} {performs : (effect : Effect) → World → effect.Reply → World → Prop}
  {rely : World → World → Prop}

/-- Only the results are of interest. -/
def anyWorld (performs : (effect : Effect) → World → effect.Reply → World → Prop)
    (rely : World → World → Prop) : Setting Effect Effect.Reply World where
  performs := performs
  rely := rely
  guarantee := fun _ _ _ _ => True

theorem holds_of_within {α : Type} {prog : Eff α} {post : α → Prop}
    (hwithin : Within (fun _ => True) post prog) (world : World) :
    Holds (anyWorld performs rely) (fun value _ => post value) prog world := by
  have hkeep : ∀ effect, True →
      (anyWorld performs rely).Triple effect (fun _ => True) fun _ _ => True :=
    fun _ _ _ _ _ _ _ => ⟨trivial, trivial⟩
  exact (hwithin.holds (fun _ _ _ => id) hkeep trivial).mono fun _ _ hboth => hboth.2

theorem prepareBatch_failures (actions : List SyncAction) (outcome : UploadOutcome) :
    Within (fun _ => True) (fun prepared => prepared.2.failures.any SyncFailure.fatal =
      outcome.failures.any SyncFailure.fatal) (prepareBatch actions outcome) := by
  induction actions generalizing outcome with
  | nil => exact rfl
  | cons action rest ih =>
      rw [prepareBatch, within_bind]
      refine (within_trivial _).mono ?_
      intro reply _
      rcases reply with error | _ | op
      · refine (ih (outcome.fail action error.text false)).mono ?_
        intro prepared hprepared
        simpa [UploadOutcome.fail] using hprepared
      · exact ih { outcome with succeeded := outcome.succeeded + 1 }
      · simp only [within_bind, within_pure]
        exact ih outcome

theorem accountResults_mild {pairs : List (SyncAction × BatchOperationResult)}
    (hmild : ∀ pair ∈ pairs, isFatalStatus pair.2.status = false) (outcome : UploadOutcome) :
    (accountResults pairs outcome).2 = false ∧
      (accountResults pairs outcome).1.failures.any SyncFailure.fatal =
        outcome.failures.any SyncFailure.fatal := by
  induction pairs generalizing outcome with
  | nil => exact ⟨rfl, rfl⟩
  | cons pair rest ih =>
      have hpair : isFatalStatus pair.2.status = false := hmild pair (by simp)
      have hhead : (accountResult outcome pair.1 pair.2).2 = false ∧
          (accountResult outcome pair.1 pair.2).1.failures.any SyncFailure.fatal =
            outcome.failures.any SyncFailure.fatal := by
        unfold accountResult
        split
        next => exact ⟨rfl, rfl⟩
        next =>
          split
          next => exact ⟨rfl, rfl⟩
          next => simp [UploadOutcome.fail, hpair]
      obtain ⟨hstop, hrest⟩ := ih (fun later hlater => hmild later (by simp [hlater]))
        (accountResult outcome pair.1 pair.2).1
      exact ⟨by simp [accountResults, hhead.1, hstop], hrest.trans hhead.2⟩

section Refusals

variable (hquiet : QuietNetwork (anyWorld performs rely))
  (hmild : ∀ op before error after, performs (.applyOp op) before (.error error) after →
    isFatalStatus error.statusCode = false)

include hquiet hmild

theorem holds_applyOperations_mild (ops : List BatchOp) (world : World) :
    Holds (anyWorld performs rely)
      (fun answer _ => ∃ results, answer = .ok results ∧ results.length = ops.length ∧
        ∀ result ∈ results, isFatalStatus result.status = false)
      (applyOperations ops) world := by
  induction ops generalizing world with
  | nil => exact ⟨[], rfl, rfl, by simp⟩
  | cons op rest ih =>
      rw [applyOperations.eq_def, holds_bind, holds_perform]
      intro before hrely reply after hperform
      refine ⟨trivial, ?_⟩
      have hcontinue : ∀ result : BatchOperationResult, isFatalStatus result.status = false →
          Holds (anyWorld performs rely)
            (fun answer _ => ∃ results, answer = .ok results ∧
              results.length = (op :: rest).length ∧
              ∀ result ∈ results, isFatalStatus result.status = false)
            (applyOperations rest >>= withResult result) after := by
        intro result hresult
        rw [holds_bind]
        refine (ih after).mono ?_
        rintro answer world ⟨results, rfl, hlength, hresults⟩
        refine ⟨result :: results, rfl, by simp [hlength], ?_⟩
        rintro found (_ | ⟨_, hfound⟩)
        · exact hresult
        · exact hresults found hfound
      cases reply with
      | ok outcome => exact hcontinue _ rfl
      | error error =>
          have hfatal := hmild op before error after hperform
          cases error with
          | internal message =>
              exact absurd rfl ((hquiet.refusal op before _ after hperform).1 message)
          | conflict path current => exact hcontinue _ rfl
          | status code message => exact hcontinue _ hfatal

theorem holds_runBatch_mild (actions : List SyncAction) {outcome : UploadOutcome}
    (hnone : outcome.failures.any SyncFailure.fatal = false) (world : World) :
    Holds (anyWorld performs rely) (fun done _ => done.1.failures.any SyncFailure.fatal = false)
      (runBatch actions outcome) world := by
  have hanything : ∀ fact : Prop, Stable (anyWorld performs rely) "" fun _ => fact :=
    fun fact => ⟨fun _ _ _ hfact => hfact, fun _ _ _ _ _ hfact _ => ⟨trivial, hfact⟩⟩
  rw [runBatch, holds_bind]
  refine (holds_of_within (prepareBatch_failures actions outcome) world).mono ?_
  rintro ⟨members, prepared⟩ world hprepared
  rw [hnone] at hprepared
  simp only
  split
  next => exact hprepared
  next =>
    rw [holds_bind]
    refine (hquiet.holds_batch (hanything True) (fun results => hanything _)
      (fun world _ => holds_applyOperations_mild hquiet hmild (members.map Prod.snd) world)
      trivial).mono ?_
    rintro answer world ⟨results, rfl, _, hresults⟩
    have hpairs : ∀ pair ∈ (members.map Prod.fst).zip results,
        isFatalStatus pair.2.status = false :=
      fun pair hpair => hresults pair.2 (List.of_mem_zip hpair).2
    exact (accountResults_mild hpairs prepared).2.trans hprepared

/-- When no refusal is fatal, no upload failure is. -/
theorem holds_runUploads_mild (uploads : List SyncAction) (held : List String) (world : World) :
    Holds (anyWorld performs rely)
      (fun outcome _ => outcome.failures.any SyncFailure.fatal = false)
      (runUploads uploads held) world := by
  unfold runUploads
  have hstart : (⟨0, [], [], held⟩ : UploadOutcome).failures.any SyncFailure.fatal = false := rfl
  generalize (⟨0, [], [], held⟩ : UploadOutcome) = outcome at hstart
  induction batches uploads generalizing outcome world with
  | nil => exact hstart
  | cons actions rest ih =>
      rw [runBatches, holds_bind]
      refine (holds_runBatch_mild hquiet hmild actions hstart world).mono ?_
      rintro ⟨done, stop⟩ world hdone
      cases stop with
      | true => exact hdone
      | false => exact ih world done hdone

end Refusals

end Mild

end ObSink.Engine
