import ObSink.Engine.Plan

/-! # One path at a time

Rules for the loops of a cycle that follow a single path. What is known of the
path is kept by every operation that is about another one; the rules say how
the operations on the path itself take it from one assertion to the next. The
world stays abstract, and so does what others do to it in between.
-/

namespace ObSink.Engine

open Prog (Setting Holds Within perform holds_bind holds_pure within_bind within_pure
  within_perform)

/-- An operation on no path, or on another one. -/
def Effect.Elsewhere (path : String) : Effect → Prop
  | .deleteLocalFile other | .getFile other | .writeFile other _ | .statFile other
  | .sealFile other => other ≠ path
  | .applyOp op => Plain op.path ∧ op.path ≠ path
  | .pick | .ask _ | .sendBatch | .receiveBatch | .readBatch => True
  | .loadLocalState | .loadRemoteCache | .getManifest _ | .saveRemoteCache _ | .loadBase
  | .saveBase _ => False

/-- An operation of the download phase. -/
def Effect.Downloads : Effect → Prop
  | .deleteLocalFile _ | .pick | .getFile _ | .writeFile _ _ => True
  | _ => False

/-- An operation of the download phase, for one of these actions. -/
def Effect.Carries (downloads : List SyncAction) : Effect → Prop
  | .deleteLocalFile path => ∃ action ∈ downloads, action.kind = .deleteLocal ∧ action.path = path
  | .writeFile path _ => ∃ action ∈ downloads, action.kind = .download ∧ action.path = path
  | .pick | .getFile _ => True
  | _ => False

/-- An operation on the bookkeeping, or a request for the manifest. -/
def Effect.Books : Effect → Prop
  | .loadRemoteCache | .getManifest _ | .saveRemoteCache _ | .loadBase | .saveBase _ => True
  | _ => False

/-- An operation of the upload phase. -/
def Effect.Uploads : Effect → Prop
  | .sealFile _ | .sendBatch | .applyOp _ | .receiveBatch | .readBatch => True
  | _ => False

/-- An operation of the upload phase, for these uploads. -/
def Effect.Seals (uploads : List SyncAction) : Effect → Prop
  | .sealFile path => ∃ action ∈ uploads, action.kind = .upload ∧ action.path = path
  | .sendBatch | .applyOp _ | .receiveBatch | .readBatch => True
  | _ => False

/-- An operation that does not look at the bookkeeping of the device. -/
def Effect.Blind : Effect → Prop
  | .loadLocalState | .loadRemoteCache | .saveRemoteCache _ | .loadBase | .saveBase _ => False
  | _ => True

theorem Effect.Downloads.blind {effect : Effect} (hdownloads : effect.Downloads) :
    effect.Blind := by
  cases effect with
  | loadLocalState => exact hdownloads.elim
  | loadRemoteCache => exact hdownloads.elim
  | saveRemoteCache cache => exact hdownloads.elim
  | loadBase => exact hdownloads.elim
  | saveBase manifest => exact hdownloads.elim
  | _ => trivial

theorem Effect.Seals.uploads {uploads : List SyncAction} {effect : Effect}
    (hseals : effect.Seals uploads) : effect.Uploads := by
  cases effect with
  | sealFile path => trivial
  | sendBatch => trivial
  | applyOp op => trivial
  | receiveBatch => trivial
  | readBatch => trivial
  | _ => exact hseals.elim

theorem Effect.Uploads.blind {effect : Effect} (huploads : effect.Uploads) : effect.Blind := by
  cases effect with
  | loadLocalState => exact huploads.elim
  | loadRemoteCache => exact huploads.elim
  | saveRemoteCache cache => exact huploads.elim
  | loadBase => exact huploads.elim
  | saveBase manifest => exact huploads.elim
  | _ => trivial

/-- What holds after an operation, by its reply. -/
def orFailed {World ε α : Type} (good : α → World → Prop) (failed : World → Prop) :
    Except ε α → World → Prop
  | .ok value => good value
  | .error _ => failed

section Rules

variable {World : Type} (setting : Setting Effect Effect.Reply World) (path : String)

/-- What others do, and operations elsewhere, keep an assertion. -/
structure Stable (inv : World → Prop) : Prop where
  rely : ∀ a b, setting.rely a b → inv a → inv b
  elsewhere : ∀ effect, effect.Elsewhere path → setting.Triple effect inv fun _ after => inv after

variable {setting path}

theorem Stable.holds {inv : World → Prop} (hstable : Stable setting path inv) {α : Type}
    {prog : Eff α} {post : α → Prop} (hwithin : Within (Effect.Elsewhere path) post prog)
    {world : World} (hinv : inv world) :
    Holds setting (fun value after => inv after ∧ post value) prog world :=
  hwithin.holds hstable.rely hstable.elsewhere hinv

theorem Stable.perform {inv : World → Prop} (hstable : Stable setting path inv) {effect : Effect}
    (helsewhere : effect.Elsewhere path) {world : World} (hinv : inv world) :
    Holds setting (fun _ after => inv after) (perform effect) world :=
  (hstable.elsewhere effect helsewhere).holds hstable.rely hinv

theorem Stable.or {left right : World → Prop} (hleft : Stable setting path left)
    (hright : Stable setting path right) :
    Stable setting path fun world => left world ∨ right world where
  rely := fun a b hrely hcases =>
    hcases.imp (hleft.rely a b hrely) (hright.rely a b hrely)
  elsewhere := by
    intro effect helsewhere before reply after hcases hperform
    rcases hcases with hinv | hinv
    · obtain ⟨hguarantee, hafter⟩ :=
        hleft.elsewhere effect helsewhere before reply after hinv hperform
      exact ⟨hguarantee, Or.inl hafter⟩
    · obtain ⟨hguarantee, hafter⟩ :=
        hright.elsewhere effect helsewhere before reply after hinv hperform
      exact ⟨hguarantee, Or.inr hafter⟩

theorem Stable.exists {ι : Type} {inv : ι → World → Prop}
    (hstable : ∀ i, Stable setting path (inv i)) :
    Stable setting path fun world => ∃ i, inv i world where
  rely := by
    rintro a b hrely ⟨i, hinv⟩
    exact ⟨i, (hstable i).rely a b hrely hinv⟩
  elsewhere := by
    rintro effect helsewhere before reply after ⟨i, hinv⟩ hperform
    obtain ⟨hguarantee, hafter⟩ :=
      (hstable i).elsewhere effect helsewhere before reply after hinv hperform
    exact ⟨hguarantee, i, hafter⟩

/-- An assertion together with a fact that is not about the world. -/
theorem Stable.and_fact {inv : World → Prop} (hstable : Stable setting path inv) (fact : Prop) :
    Stable setting path fun world => inv world ∧ fact where
  rely := fun a b hrely hinv => ⟨hstable.rely a b hrely hinv.1, hinv.2⟩
  elsewhere := by
    intro effect helsewhere before reply after hinv hperform
    obtain ⟨hguarantee, hafter⟩ :=
      hstable.elsewhere effect helsewhere before reply after hinv.1 hperform
    exact ⟨hguarantee, hafter, hinv.2⟩

theorem stable_never : Stable setting path fun _ => False :=
  ⟨fun _ _ _ hnever => hnever, fun _ _ _ _ _ hnever => hnever.elim⟩

/-! ## Local deletes -/

/-- No failure is about this path. -/
def Spares (path : String) (failures : List SyncFailure) : Prop :=
  path ∉ failures.map SyncFailure.path

theorem Spares.append {first second : List SyncFailure} (hfirst : Spares path first)
    (hsecond : Spares path second) : Spares path (first ++ second) := by
  unfold Spares at *
  simp only [List.map_append, List.mem_append, not_or]
  exact ⟨hfirst, hsecond⟩

theorem deleteAll_within {actions : List SyncAction}
    (hother : path ∉ actions.map SyncAction.path) :
    Within (Effect.Elsewhere path) (Spares path) (deleteAll actions) := by
  induction actions with
  | nil => simp [deleteAll, Spares]
  | cons action rest ih =>
      simp only [List.map_cons, List.mem_cons, not_or] at hother
      rw [deleteAll, within_bind, within_perform]
      refine ⟨Ne.symm hother.1, fun reply => ?_⟩
      simp only [within_bind, within_pure]
      refine (ih hother.2).mono ?_
      intro failures hfailures
      cases reply with
      | ok value => exact hfailures
      | error error => exact Spares.append (by simpa [Spares, failureOf] using hother.1) hfailures

/-- The local delete of the path, somewhere in the list. -/
theorem holds_deleteAll {before after failed : World → Prop} (hbefore : Stable setting path before)
    (hafter : Stable setting path after) (hfailed : Stable setting path failed)
    (hdelete : setting.Triple (.deleteLocalFile path) before (orFailed (fun _ => after) failed))
    {actions : List SyncAction} (hnodup : (actions.map SyncAction.path).Nodup)
    (hmem : path ∈ actions.map SyncAction.path) {world : World} (hworld : before world) :
    Holds setting (fun failures world => (after world ∧ Spares path failures) ∨
      (failed world ∧ ¬Spares path failures)) (deleteAll actions) world := by
  induction actions generalizing world with
  | nil => simp at hmem
  | cons action rest ih =>
      simp only [List.map_cons, List.nodup_cons] at hnodup
      rw [deleteAll, holds_bind]
      by_cases heq : action.path = path
      · subst heq
        -- the rest of the list is about other paths
        refine (hdelete.holds hbefore.rely hworld).mono ?_
        intro reply world hreply
        cases reply with
        | ok value =>
            simp only [holds_bind, holds_pure]
            refine (hafter.holds (deleteAll_within hnodup.1) hreply).mono ?_
            rintro failures world ⟨hworld, hspares⟩
            exact Or.inl ⟨hworld, hspares⟩
        | error error =>
            simp only [holds_bind, holds_pure]
            refine (hfailed.holds (deleteAll_within hnodup.1) hreply).mono ?_
            rintro failures world ⟨hworld, _⟩
            exact Or.inr ⟨hworld, by simp [Spares, failureOf]⟩
      · have hrest : path ∈ rest.map SyncAction.path := by
          simpa [Ne.symm heq] using hmem
        refine (hbefore.perform (show (Effect.deleteLocalFile action.path).Elsewhere path from heq)
          hworld).mono ?_
        intro reply world hworld
        simp only [holds_bind, holds_pure]
        refine (ih hnodup.2 hrest hworld).mono ?_
        intro failures world hcases
        have hother : ∀ failure : SyncFailure, failure.path = action.path →
            Spares path [failure] := by
          intro failure hpath
          simpa [Spares, hpath] using Ne.symm heq
        cases reply with
        | ok value => exact hcases
        | error error =>
            have hhead := hother { failureOf action .deleteLocal error with fatal := false } rfl
            rcases hcases with ⟨hafter, hspares⟩ | ⟨hfailed, hfailure⟩
            · exact Or.inl ⟨hafter, hhead.append hspares⟩
            · refine Or.inr ⟨hfailed, ?_⟩
              simp only [Spares, List.map_append, List.mem_append, not_not] at hfailure ⊢
              exact Or.inr hfailure

/-! ## Downloads -/

/-- Steps a download still needs at most. -/
def Stage.weight : Stage → Nat
  | .waiting => 3
  | .started => 2
  | .fetched _ => 1

variable (setting path)

/-- How a download takes its path from `before` to `after`, or to `failed`;
`fetched` is what holds while the blob is at hand. -/
structure FetchRule (crypto : Crypto) (before after failed : World → Prop)
    (fetched : Bytes → World → Prop) : Prop where
  stable_before : Stable setting path before
  stable_after : Stable setting path after
  stable_failed : Stable setting path failed
  stable_fetched : ∀ blob, Stable setting path (fetched blob)
  get : setting.Triple (.getFile path) before (orFailed fetched failed)
  unreadable : ∀ blob error world, crypto.decrypt blob = .error error → fetched blob world →
    failed world
  write : ∀ blob plaintext, crypto.decrypt blob = .ok plaintext →
    setting.Triple (.writeFile path plaintext) (fetched blob) (orFailed (fun _ => after) failed)

/-- A step of a download brings it nearer to its end; a failure is its own. -/
def FlightStep.Fits (flight : Flight) : FlightStep → Prop
  | .goOn stage => stage.weight < flight.stage.weight
  | .done none => True
  | .done (some failure) => failure.path = flight.action.path

variable {setting path}

theorem fetchOne_within (crypto : Crypto) (stop : Bool) {flight : Flight}
    (hother : flight.action.path ≠ path) :
    Within (Effect.Elsewhere path) (FlightStep.Fits flight) (fetchOne crypto stop flight) := by
  obtain ⟨action, stage⟩ := flight
  cases stage with
  | waiting =>
      simp only [fetchOne]
      split
      next => simp [FlightStep.Fits]
      next => simp [FlightStep.Fits, Stage.weight]
  | started =>
      simp only [fetchOne, within_bind, within_perform]
      refine ⟨hother, fun reply => ?_⟩
      cases reply with
      | ok blob => simp [FlightStep.Fits, Stage.weight]
      | error error => simp [FlightStep.Fits, failureOf]
  | fetched blob =>
      simp only [fetchOne]
      cases crypto.decrypt blob with
      | error error => simp [FlightStep.Fits, failureOf]
      | ok plaintext =>
          simp only [within_bind, within_perform]
          refine ⟨hother, fun reply => ?_⟩
          cases reply with
          | ok value => simp [FlightStep.Fits]
          | error error => simp [FlightStep.Fits, failureOf]

section Fetch

variable {crypto : Crypto} {before after failed : World → Prop} {fetched : Bytes → World → Prop}

variable (before fetched) in
/-- What holds of the path at a stage of its download. -/
def atStage : Stage → World → Prop
  | .waiting | .started => before
  | .fetched blob => fetched blob

theorem FetchRule.stable_atStage (hrule : FetchRule setting path crypto before after failed fetched)
    (stage : Stage) : Stable setting path (atStage before fetched stage) := by
  cases stage with
  | waiting => exact hrule.stable_before
  | started => exact hrule.stable_before
  | fetched blob => exact hrule.stable_fetched blob

/-- One step of the download of the path. -/
theorem FetchRule.holds_fetchOne (hrule : FetchRule setting path crypto before after failed fetched)
    (stop : Bool) {flight : Flight} (hpath : flight.action.path = path)
    (hkind : flight.action.kind = .download) {world : World}
    (hworld : atStage before fetched flight.stage world) :
    Holds setting (fun step world => step.Fits flight ∧
      match step with
      | .goOn stage => atStage before fetched stage world
      | .done none => after world ∨ (before world ∧ stop = true)
      | .done (some _) => failed world) (fetchOne crypto stop flight) world := by
  obtain ⟨action, stage⟩ := flight
  subst hpath
  simp only at hkind
  cases stage with
  | waiting =>
      simp only [fetchOne]
      split
      next hstop =>
        simp only [hkind, ne_eq, not_true_eq_false, false_or] at hstop
        exact ⟨trivial, Or.inr ⟨hworld, hstop⟩⟩
      next => exact ⟨by simp [FlightStep.Fits, Stage.weight], hworld⟩
  | started =>
      simp only [fetchOne, holds_bind]
      refine (hrule.get.holds hrule.stable_before.rely hworld).mono ?_
      intro reply world hreply
      cases reply with
      | ok blob => exact ⟨by simp [FlightStep.Fits, Stage.weight], hreply⟩
      | error error => exact ⟨rfl, hreply⟩
  | fetched blob =>
      simp only [fetchOne]
      cases hdecrypt : crypto.decrypt blob with
      | error error => exact ⟨rfl, hrule.unreadable blob error world hdecrypt hworld⟩
      | ok plaintext =>
          simp only [holds_bind]
          refine ((hrule.write blob plaintext hdecrypt).holds
            (hrule.stable_fetched blob).rely hworld).mono ?_
          intro reply world hreply
          cases reply with
          | ok value => exact ⟨trivial, Or.inl hreply⟩
          | error error => exact ⟨rfl, hreply⟩

variable (path before after failed) in
/-- How the path stands once its download is over. -/
def Ended (stop : Bool) (failures : List SyncFailure) (world : World) : Prop :=
  (after world ∧ Spares path failures) ∨ (failed world ∧ ¬Spares path failures) ∨
    (before world ∧ stop = true ∧ Spares path failures)

theorem FetchRule.stable_ended (hrule : FetchRule setting path crypto before after failed fetched)
    (stop : Bool) (failures : List SyncFailure) :
    Stable setting path (Ended path before after failed stop failures) :=
  (hrule.stable_after.and_fact _).or
    ((hrule.stable_failed.and_fact _).or (hrule.stable_before.and_fact _))

variable (path before fetched) in
/-- The download of the path is among those that are not over yet. -/
def Flying (flights : List Flight) (failures : List SyncFailure) (world : World) : Prop :=
  ∃ flight : Flight, atStage before fetched flight.stage world ∧ flight ∈ flights ∧
    flight.action.path = path ∧ flight.action.kind = .download ∧ Spares path failures

variable (path before after failed fetched) in
/-- Where the path stands while the downloads go on. -/
def Loop (flights : List Flight) (stop : Bool) (failures : List SyncFailure)
    (world : World) : Prop :=
  Flying path before fetched flights failures world ∨
    (Ended path before after failed stop failures world ∧
      path ∉ flights.map fun flight => flight.action.path)

theorem FetchRule.stable_loop (hrule : FetchRule setting path crypto before after failed fetched)
    (flights : List Flight) (stop : Bool) (failures : List SyncFailure) :
    Stable setting path (Loop path before after failed fetched flights stop failures) :=
  (Stable.exists fun flight : Flight => (hrule.stable_atStage flight.stage).and_fact _).or
    ((hrule.stable_ended stop failures).and_fact _)

/-- The list of downloads after a step of the one between `left` and `right`. -/
def FlightStep.remaining (left right : List Flight) (flight : Flight) : FlightStep → List Flight
  | .goOn stage => left ++ { flight with stage } :: right
  | .done _ => left ++ right

def FlightStep.failures : FlightStep → List SyncFailure
  | .done (some failure) => [failure]
  | _ => []

/-- One step of any download. -/
theorem FetchRule.holds_step (hrule : FetchRule setting path crypto before after failed fetched)
    {left right : List Flight} {flight : Flight}
    (hnodup : ((left ++ flight :: right).map fun flight => flight.action.path).Nodup)
    {stop : Bool} {failures : List SyncFailure} {world : World}
    (hloop : Loop path before after failed fetched (left ++ flight :: right) stop failures world) :
    Holds setting (fun step world => step.Fits flight ∧
      Loop path before after failed fetched (step.remaining left right flight)
        (stop || step.failures.any SyncFailure.fatal) (failures ++ step.failures) world)
      (fetchOne crypto stop flight) world := by
  -- one download a path
  have hsplit : path = flight.action.path →
      path ∉ (left ++ right).map fun flight => flight.action.path := by
    rintro rfl hmem
    simp only [List.map_append, List.map_cons, List.nodup_append, List.nodup_cons] at hnodup
    simp only [List.map_append, List.mem_append] at hmem
    rcases hmem with hleft | hright
    · exact hnodup.2.2 _ hleft _ (by simp) rfl
    · exact hnodup.2.1.1 hright
  by_cases hpath : flight.action.path = path
  · rcases hloop with ⟨own, hworld, hmem, hown, hkind, hspares⟩ | ⟨_, hgone⟩
    · -- the download of the path is the one that goes on
      obtain rfl : own = flight := by
        by_contra hne
        refine hsplit hpath.symm (List.mem_map.mpr ⟨own, ?_, hown⟩)
        simpa [hne] using hmem
      refine (hrule.holds_fetchOne stop hpath hkind hworld).mono ?_
      rintro step world ⟨hfits, hstep⟩
      refine ⟨hfits, ?_⟩
      cases step with
      | goOn stage =>
          refine Or.inl ⟨{ own with stage }, hstep, by simp [FlightStep.remaining], hown, hkind, ?_⟩
          simpa [FlightStep.failures] using hspares
      | done failure =>
          refine Or.inr ⟨?_, hsplit hpath.symm⟩
          cases failure with
          | none =>
              simp only [FlightStep.failures, List.append_nil, List.any_nil, Bool.or_false]
              rcases hstep with hafter | ⟨hbefore, hstop⟩
              · exact Or.inl ⟨hafter, hspares⟩
              · exact Or.inr (Or.inr ⟨hbefore, hstop, hspares⟩)
          | some failure =>
              refine Or.inr (Or.inl ⟨hstep, ?_⟩)
              have hfailure : failure.path = path := hfits.trans hpath
              simp [Spares, FlightStep.failures, hfailure]
    · exact absurd (List.mem_map.mpr ⟨flight, by simp, hpath⟩) hgone
  · refine ((hrule.stable_loop _ stop failures).holds
      (fetchOne_within crypto stop hpath) hloop).mono ?_
    rintro step world ⟨hloop, hfits⟩
    refine ⟨hfits, ?_⟩
    have hspares : Spares path (failures ++ step.failures) ↔ Spares path failures := by
      rcases step with stage | failure | failure
      · simp [FlightStep.failures]
      · simp [FlightStep.failures]
      · have hfailure : failure.path = flight.action.path := hfits
        simp [FlightStep.failures, Spares, hfailure, Ne.symm hpath]
    rcases hloop with ⟨own, hworld, hmem, hown, hkind, hfree⟩ | ⟨hended, hgone⟩
    · have hne : own ≠ flight := by
        rintro rfl
        exact hpath hown
      refine Or.inl ⟨own, hworld, ?_, hown, hkind, hspares.mpr hfree⟩
      have hrest : own ∈ left ∨ own ∈ right := by simpa [hne] using hmem
      rcases step with stage | failure
      · simp only [FlightStep.remaining, List.mem_append, List.mem_cons]
        exact hrest.imp id Or.inr
      · simpa [FlightStep.remaining] using hrest
    · refine Or.inr ⟨?_, ?_⟩
      · unfold Ended at hended ⊢
        rw [hspares]
        refine hended.imp id (Or.imp id ?_)
        rintro ⟨hbefore, rfl, hfree⟩
        exact ⟨hbefore, rfl, hfree⟩
      · rcases step with stage | failure
        · simpa [FlightStep.remaining] using hgone
        · simp only [FlightStep.remaining]
          intro hmem
          apply hgone
          simp only [List.map_append, List.map_cons, List.mem_append, List.mem_cons] at hmem ⊢
          exact hmem.imp id Or.inr

/-- The downloads that are not over yet, those not yet begun included. -/
def openFlights (pending : List SyncAction) (inFlight : List Flight) : List Flight :=
  inFlight ++ pending.map fun action => ⟨action, .waiting⟩

/-- Moving downloads into flight leaves the open ones as they are. -/
theorem openFlights_take (pending : List SyncAction) (inFlight : List Flight) (free : Nat) :
    openFlights (pending.drop free)
      (inFlight ++ (pending.take free).map fun action => ⟨action, .waiting⟩) =
      openFlights pending inFlight := by
  simp only [openFlights, List.append_assoc, ← List.map_append, List.take_append_drop]

/-- Nothing is under way only when nothing is pending. -/
theorem openFlights_eq_nil {pending : List SyncAction} {inFlight : List Flight}
    (hnone : inFlight ++ (pending.take (downloadConcurrency - inFlight.length)).map
      (fun action => (⟨action, .waiting⟩ : Flight)) = []) :
    openFlights pending inFlight = [] := by
  obtain ⟨rfl, htaken⟩ := List.append_eq_nil_iff.mp hnone
  have hpending : pending = [] := by
    rcases List.take_eq_nil_iff.mp (List.map_eq_nil_iff.mp htaken) with hzero | hnil
    · simp [downloadConcurrency] at hzero
    · exact hnil
  simp [openFlights, hpending]

def weightOf (flights : List Flight) : Nat :=
  (flights.map fun flight => flight.stage.weight).sum

theorem weightOf_append (first second : List Flight) :
    weightOf (first ++ second) = weightOf first + weightOf second := by
  simp [weightOf]

theorem weightOf_cons (flight : Flight) (rest : List Flight) :
    weightOf (flight :: rest) = flight.stage.weight + weightOf rest := by
  simp [weightOf]

theorem Stage.weight_pos (stage : Stage) : 0 < stage.weight := by
  cases stage <;> simp [weight]

theorem eq_nil_of_weightOf {flights : List Flight} (hweight : weightOf flights ≤ 0) :
    flights = [] := by
  cases flights with
  | nil => rfl
  | cons flight rest =>
      have hpos := flight.stage.weight_pos
      rw [weightOf_cons] at hweight
      omega

theorem FlightStep.weight_remaining {left right : List Flight} {flight : Flight}
    {step : FlightStep} (hfits : step.Fits flight) :
    weightOf (step.remaining left right flight) < weightOf (left ++ flight :: right) := by
  cases step with
  | goOn stage =>
      have hlt : stage.weight < flight.stage.weight := hfits
      simp only [remaining, weightOf_append, weightOf_cons]
      omega
  | done failure =>
      have hpos := flight.stage.weight_pos
      simp only [remaining, weightOf_append, weightOf_cons]
      omega

theorem FlightStep.nodup_remaining {left right : List Flight} {flight : Flight}
    (hnodup : ((left ++ flight :: right).map fun flight => flight.action.path).Nodup)
    (step : FlightStep) :
    ((step.remaining left right flight).map fun flight => flight.action.path).Nodup := by
  cases step with
  | goOn stage => simpa [remaining] using hnodup
  | done failure =>
      refine hnodup.sublist (List.Sublist.map _ ?_)
      exact List.Sublist.append_left (List.sublist_cons_self flight right) left

variable (path before after failed) in
/-- How the path stands after all downloads. A download that was never started
is behind a fatal failure. -/
def Fetched (failures : List SyncFailure) (world : World) : Prop :=
  (after world ∧ Spares path failures) ∨ (failed world ∧ ¬Spares path failures) ∨
    (before world ∧ failures.any SyncFailure.fatal = true ∧ Spares path failures)

theorem fetched_of_loop_nil {stop : Bool} {failures : List SyncFailure} {world : World}
    (hloop : Loop path before after failed fetched [] stop failures world)
    (hstop : stop = true → failures.any SyncFailure.fatal = true) :
    Fetched path before after failed failures world := by
  rcases hloop with ⟨flight, _, hmem, _⟩ | ⟨hended, _⟩
  · cases hmem
  · refine Or.imp id (Or.imp id ?_) hended
    rintro ⟨hbefore, hstopped, hspares⟩
    exact ⟨hbefore, hstop hstopped, hspares⟩

/-- All downloads, from any point on. -/
theorem FetchRule.holds_fetchLoop
    (hrule : FetchRule setting path crypto before after failed fetched)
    {fuel : Nat} {pending : List SyncAction} {inFlight : List Flight} {stop : Bool}
    {failures : List SyncFailure} {world : World}
    (hnodup : ((openFlights pending inFlight).map fun flight => flight.action.path).Nodup)
    (hfuel : weightOf (openFlights pending inFlight) ≤ fuel)
    (hstop : stop = true → failures.any SyncFailure.fatal = true)
    (hloop : Loop path before after failed fetched (openFlights pending inFlight) stop failures
      world) :
    Holds setting (Fetched path before after failed)
      (fetchLoop crypto fuel pending inFlight stop failures) world := by
  induction fuel generalizing pending inFlight stop failures world with
  | zero =>
      rw [eq_nil_of_weightOf hfuel] at hloop
      exact fetched_of_loop_nil hloop hstop
  | succ fuel ih =>
      let free := downloadConcurrency - inFlight.length
      let started := inFlight ++ (pending.take free).map fun action => (⟨action, .waiting⟩ : Flight)
      change Holds setting _ (if started.isEmpty then _ else _) world
      split
      next hempty =>
        rw [openFlights_eq_nil (List.isEmpty_iff.mp hempty)] at hloop
        exact fetched_of_loop_nil hloop hstop
      next hnonempty =>
        have hopen : openFlights (pending.drop free) started = openFlights pending inFlight :=
          openFlights_take pending inFlight free
        rw [← hopen] at hnodup hfuel hloop
        rw [holds_bind]
        refine ((hrule.stable_loop _ stop failures).perform
          (show Effect.pick.Elsewhere path from trivial) hloop).mono ?_
        intro pick world hloop
        have hlength : 0 < started.length := by
          rw [List.length_pos_iff]
          intro hnil
          simp [hnil] at hnonempty
        have hindex : pick % started.length < started.length := Nat.mod_lt _ hlength
        -- the downloads before and behind the one that goes on
        let flight := started[pick % started.length]
        let left := started.take (pick % started.length)
        let right := started.drop (pick % started.length + 1)
        let rest := right ++ (pending.drop free).map fun action => (⟨action, .waiting⟩ : Flight)
        have hflight : started[pick % started.length]? = some flight :=
          List.getElem?_eq_getElem hindex
        have hstarted : started = left ++ flight :: right := by
          simp only [left, right, flight, List.cons_getElem_drop_succ, List.take_append_drop]
        have hall : openFlights (pending.drop free) started = left ++ flight :: rest := by
          rw [openFlights, hstarted]
          simp [rest]
        rw [hall] at hnodup hfuel hloop
        dsimp only
        rw [hflight]
        simp only [holds_bind]
        refine (hrule.holds_step hnodup hloop).mono ?_
        rintro step world ⟨hfits, hloop⟩
        have hweight : weightOf (step.remaining left rest flight) <
            weightOf (left ++ flight :: rest) :=
          FlightStep.weight_remaining hfits
        have hdistinct := FlightStep.nodup_remaining hnodup step
        have hset : ∀ stage, started.set (pick % started.length) { flight with stage } =
            left ++ { flight with stage } :: right := by
          intro stage
          rw [List.set_eq_take_append_cons_drop, if_pos hindex]
        have herase : started.eraseIdx (pick % started.length) = left ++ right :=
          List.eraseIdx_eq_take_drop_succ _ _
        rcases step with stage | failure | failure
        · have hnext : openFlights (pending.drop free)
              (started.set (pick % started.length) { flight with stage }) =
              FlightStep.remaining left rest flight (.goOn stage) := by
            rw [hset]
            simp [openFlights, FlightStep.remaining, rest]
          simp only [FlightStep.failures, List.append_nil, List.any_nil, Bool.or_false] at hloop
          exact ih (by rw [hnext]; exact hdistinct) (by rw [hnext]; omega) hstop
            (by rw [hnext]; exact hloop)
        · have hnext : openFlights (pending.drop free)
              (started.eraseIdx (pick % started.length)) =
              FlightStep.remaining left rest flight (.done none) := by
            rw [herase]
            simp [openFlights, FlightStep.remaining, rest]
          simp only [FlightStep.failures, List.append_nil, List.any_nil, Bool.or_false] at hloop
          exact ih (by rw [hnext]; exact hdistinct) (by rw [hnext]; omega) hstop
            (by rw [hnext]; exact hloop)
        · have hnext : openFlights (pending.drop free)
              (started.eraseIdx (pick % started.length)) =
              FlightStep.remaining left rest flight (.done (some failure)) := by
            rw [herase]
            simp [openFlights, FlightStep.remaining, rest]
          have hstopped : (stop || failure.fatal) = true →
              (failures ++ [failure]).any SyncFailure.fatal = true := by
            intro heither
            simp only [List.any_append, List.any_cons, List.any_nil, Bool.or_false,
              Bool.or_eq_true] at heither ⊢
            exact heither.imp hstop id
          simp only [FlightStep.failures, List.any_cons, List.any_nil, Bool.or_false] at hloop
          exact ih (by rw [hnext]; exact hdistinct) (by rw [hnext]; omega) hstopped
            (by rw [hnext]; exact hloop)

theorem weightOf_waiting (actions : List SyncAction) :
    weightOf (openFlights actions []) = 3 * actions.length := by
  simp [weightOf, openFlights, Function.comp_def, Stage.weight, Nat.mul_comm]

theorem map_path_waiting (actions : List SyncAction) :
    ((openFlights actions []).map fun flight => flight.action.path) =
      actions.map SyncAction.path := by
  simp [openFlights, Function.comp_def]

/-- The download of the path, somewhere in the list. -/
theorem FetchRule.holds_applyDownloads
    (hrule : FetchRule setting path crypto before after failed fetched)
    {downloads : List SyncAction} (hnodup : (downloads.map SyncAction.path).Nodup)
    {action : SyncAction} (hmem : action ∈ downloads) (hpath : action.path = path)
    (hkind : action.kind = .download) {world : World} (hworld : before world) :
    Holds setting (Fetched path before after failed) (applyDownloads crypto downloads) world := by
  let fetches := downloads.filter fun action => action.kind ≠ .deleteLocal
  have hfetch : action ∈ fetches := by simp [fetches, hmem, hkind]
  have hdeletes : path ∉
      (downloads.filter fun action => action.kind = .deleteLocal).map SyncAction.path := by
    intro hdelete
    obtain ⟨other, hother, hsame⟩ := List.mem_map.mp hdelete
    rw [List.mem_filter] at hother
    have heq : other = action :=
      List.inj_on_of_nodup_map hnodup hother.1 hmem (hsame.trans hpath.symm)
    simp [heq, hkind] at hother
  have hdistinct : (fetches.map SyncAction.path).Nodup :=
    hnodup.sublist (List.Sublist.map _ List.filter_sublist)
  have hloop : ∀ world, before world →
      Loop path before after failed fetched (openFlights fetches []) false [] world := by
    intro world hworld
    refine Or.inl ⟨⟨action, .waiting⟩, hworld, ?_, hpath, hkind, by simp [Spares]⟩
    simp only [openFlights, List.nil_append]
    exact List.mem_map.mpr ⟨action, hfetch, rfl⟩
  rw [applyDownloads, holds_bind]
  refine (hrule.stable_before.holds (deleteAll_within hdeletes) hworld).mono ?_
  rintro deleted world ⟨hworld, hdeleted⟩
  rw [holds_bind]
  refine (hrule.holds_fetchLoop (by rw [map_path_waiting]; exact hdistinct)
    (by rw [weightOf_waiting]) (by simp) (hloop world hworld)).mono ?_
  intro failures world hfetched
  rw [holds_pure]
  have hspares : Spares path (deleted ++ failures) ↔ Spares path failures := by
    simp only [Spares, List.map_append, List.mem_append, not_or] at hdeleted ⊢
    exact ⟨fun hboth => hboth.2, fun hsecond => ⟨hdeleted, hsecond⟩⟩
  unfold Fetched at hfetched ⊢
  rw [hspares]
  refine hfetched.imp id (Or.imp id ?_)
  rintro ⟨hbefore, hfatal, hrest⟩
  exact ⟨hbefore, by simp only [List.any_append, hfatal, Bool.or_true], hrest⟩

end Fetch

/-- A path that is not among the fetches. -/
theorem FetchRule.idle (crypto : Crypto) {inv : World → Prop} (hstable : Stable setting path inv) :
    FetchRule setting path crypto (fun _ => False) inv (fun _ => False) (fun _ _ => False) := by
  exact ⟨stable_never, hstable, stable_never, fun _ => stable_never, by simp [Setting.Triple],
    by simp, by simp [Setting.Triple]⟩

theorem holds_fetchLoop_idle (crypto : Crypto) {inv : World → Prop}
    (hstable : Stable setting path inv) {fetches : List SyncAction}
    (hnodup : (fetches.map SyncAction.path).Nodup) (hother : path ∉ fetches.map SyncAction.path)
    {world : World} (hinv : inv world) :
    Holds setting (fun failures world => inv world ∧ Spares path failures)
      (fetchLoop crypto (3 * fetches.length) fetches [] false []) world := by
  refine ((FetchRule.idle crypto hstable).holds_fetchLoop (by rw [map_path_waiting]; exact hnodup)
    (by rw [weightOf_waiting]) (by simp) ?_).mono ?_
  · exact Or.inr ⟨Or.inl ⟨hinv, by simp [Spares]⟩, by rw [map_path_waiting]; exact hother⟩
  · intro failures world hfetched
    rcases hfetched with hdone | ⟨hnever, _⟩ | ⟨hnever, _⟩
    · exact hdone
    · exact hnever.elim
    · exact hnever.elim

/-- A path that is not among the downloads. -/
theorem holds_applyDownloads_idle (crypto : Crypto) {inv : World → Prop}
    (hstable : Stable setting path inv) {downloads : List SyncAction}
    (hnodup : (downloads.map SyncAction.path).Nodup)
    (hother : path ∉ downloads.map SyncAction.path) {world : World} (hinv : inv world) :
    Holds setting (fun failures world => inv world ∧ Spares path failures)
      (applyDownloads crypto downloads) world := by
  have hpart : ∀ keep : SyncAction → Bool, path ∉ (downloads.filter keep).map SyncAction.path := by
    intro keep hmem
    exact hother (List.Sublist.map _ List.filter_sublist |>.subset hmem)
  rw [applyDownloads, holds_bind]
  refine (hstable.holds (deleteAll_within (hpart _)) hinv).mono ?_
  rintro deleted world ⟨hinv, hdeleted⟩
  rw [holds_bind]
  refine (holds_fetchLoop_idle crypto hstable
    (hnodup.sublist (List.Sublist.map _ List.filter_sublist)) (hpart _) hinv).mono ?_
  rintro failures world ⟨hinv, hfetched⟩
  exact ⟨hinv, hdeleted.append hfetched⟩

/-- The local delete of the path, somewhere in the list. -/
theorem holds_applyDownloads_delete (crypto : Crypto) {before after failed : World → Prop}
    (hbefore : Stable setting path before) (hafter : Stable setting path after)
    (hfailed : Stable setting path failed)
    (hdelete : setting.Triple (.deleteLocalFile path) before (orFailed (fun _ => after) failed))
    {downloads : List SyncAction} (hnodup : (downloads.map SyncAction.path).Nodup)
    {action : SyncAction} (hmem : action ∈ downloads) (hpath : action.path = path)
    (hkind : action.kind = .deleteLocal) {world : World} (hworld : before world) :
    Holds setting (fun failures world => (after world ∧ Spares path failures) ∨
      (failed world ∧ ¬Spares path failures)) (applyDownloads crypto downloads) world := by
  have hdeletes : path ∈
      (downloads.filter fun action => action.kind = .deleteLocal).map SyncAction.path :=
    List.mem_map.mpr ⟨action, by simp [hmem, hkind], hpath⟩
  have hfetches : path ∉
      (downloads.filter fun action => action.kind ≠ .deleteLocal).map SyncAction.path := by
    intro hfetch
    obtain ⟨other, hother, hsame⟩ := List.mem_map.mp hfetch
    rw [List.mem_filter] at hother
    have heq : other = action :=
      List.inj_on_of_nodup_map hnodup hother.1 hmem (hsame.trans hpath.symm)
    simp [heq, hkind] at hother
  have hpart : ∀ keep : SyncAction → Bool,
      ((downloads.filter keep).map SyncAction.path).Nodup :=
    fun keep => hnodup.sublist (List.Sublist.map _ List.filter_sublist)
  rw [applyDownloads, holds_bind]
  refine (holds_deleteAll hbefore hafter hfailed hdelete (hpart _) hdeletes hworld).mono ?_
  intro deleted world hcases
  rw [holds_bind]
  have hstable := (hafter.and_fact (Spares path deleted)).or
    (hfailed.and_fact (¬Spares path deleted))
  refine (holds_fetchLoop_idle crypto hstable (hpart _) hfetches hcases).mono ?_
  rintro failures world ⟨hcases, hspares⟩
  refine hcases.imp ?_ ?_
  · rintro ⟨hworld, hdeleted⟩
    exact ⟨hworld, hdeleted.append hspares⟩
  · rintro ⟨hworld, hdeleted⟩
    refine ⟨hworld, ?_⟩
    simp only [Spares, List.map_append, List.mem_append, not_not] at hdeleted ⊢
    exact Or.inl hdeleted

end Rules

/-! ## The operations of the download phase -/

/-- Every failure is about one of these actions. -/
def About (actions : List SyncAction) (failures : List SyncFailure) : Prop :=
  ∀ failure ∈ failures, failure.path ∈ actions.map SyncAction.path

theorem About.append {actions : List SyncAction} {first second : List SyncFailure}
    (hfirst : About actions first) (hsecond : About actions second) :
    About actions (first ++ second) := by
  intro failure hfailure
  rcases List.mem_append.mp hfailure with hleft | hright
  · exact hfirst failure hleft
  · exact hsecond failure hright

theorem About.mono {actions all : List SyncAction} {failures : List SyncFailure}
    (habout : About actions failures) (hsubset : actions ⊆ all) : About all failures :=
  fun failure hfailure => List.map_subset _ hsubset (habout failure hfailure)

theorem Effect.Carries.downloads {downloads : List SyncAction} {effect : Effect}
    (hcarries : effect.Carries downloads) : effect.Downloads := by
  cases effect with
  | deleteLocalFile path => trivial
  | writeFile path content => trivial
  | pick => trivial
  | getFile path => trivial
  | _ => exact hcarries.elim

theorem deleteAll_carries {all actions : List SyncAction}
    (hall : ∀ action ∈ actions, action ∈ all ∧ action.kind = .deleteLocal) :
    Within (Effect.Carries all) (About actions) (deleteAll actions) := by
  induction actions with
  | nil => simp [deleteAll, About]
  | cons action rest ih =>
      obtain ⟨hmem, hkind⟩ := hall action List.mem_cons_self
      rw [deleteAll, within_bind, within_perform]
      refine ⟨⟨action, hmem, hkind, rfl⟩, fun reply => ?_⟩
      simp only [within_bind, within_pure]
      refine (ih fun later hlater => hall later (List.mem_cons_of_mem _ hlater)).mono ?_
      intro failures habout
      apply About.append
      · cases reply with
        | ok value => simp [About]
        | error error => simp [About, failureOf]
      · exact habout.mono (List.subset_cons_self _ _)

/-- What a step of a download may report. -/
def FlightStep.Reports (flight : Flight) : FlightStep → Prop
  | .done (some failure) => failure.path = flight.action.path
  | _ => True

/-- A download of the list; only downloads get under way. -/
def Flight.Of (all : List SyncAction) (flight : Flight) : Prop :=
  flight.action ∈ all ∧ (flight.stage ≠ .waiting → flight.action.kind = .download)

theorem fetchOne_carries (crypto : Crypto) {all : List SyncAction} (stop : Bool) {flight : Flight}
    (hown : flight.Of all) :
    Within (Effect.Carries all) (fun step => step.Reports flight ∧
      ∀ stage, step = .goOn stage → flight.action.kind = .download)
        (fetchOne crypto stop flight) := by
  obtain ⟨action, stage⟩ := flight
  obtain ⟨hmem, hkind⟩ := hown
  cases stage with
  | waiting =>
      simp only [fetchOne]
      split
      next => exact ⟨trivial, by simp⟩
      next hgo =>
        rw [not_or, not_not] at hgo
        exact ⟨trivial, fun _ _ => hgo.1⟩
  | started =>
      have hkind := hkind (by simp)
      simp only [fetchOne, within_bind, within_perform]
      refine ⟨trivial, fun reply => ?_⟩
      cases reply with
      | ok blob => exact ⟨trivial, fun _ _ => hkind⟩
      | error error => exact ⟨rfl, by simp⟩
  | fetched blob =>
      have hkind := hkind (by simp)
      simp only [fetchOne]
      cases crypto.decrypt blob with
      | error error => exact ⟨rfl, by simp⟩
      | ok plaintext =>
          simp only [within_bind, within_perform]
          refine ⟨⟨action, hmem, hkind, rfl⟩, fun reply => ?_⟩
          cases reply with
          | ok value => exact ⟨trivial, by simp⟩
          | error error => exact ⟨rfl, by simp⟩

theorem fetchLoop_carries (crypto : Crypto) {all : List SyncAction} (fuel : Nat)
    {pending : List SyncAction} {inFlight : List Flight} {failures : List SyncFailure} (stop : Bool)
    (hpending : pending ⊆ all) (hflying : ∀ flight ∈ inFlight, flight.Of all)
    (habout : About all failures) :
    Within (Effect.Carries all) (About all)
      (fetchLoop crypto fuel pending inFlight stop failures) := by
  induction fuel generalizing pending inFlight stop failures with
  | zero => exact habout
  | succ fuel ih =>
      rw [fetchLoop]
      simp only
      have hstarted : ∀ flight ∈ inFlight ++ (pending.take (downloadConcurrency -
          inFlight.length)).map fun action => (⟨action, .waiting⟩ : Flight), flight.Of all := by
        intro flight hmem
        rcases List.mem_append.mp hmem with hold | hnew
        · exact hflying flight hold
        · obtain ⟨action, haction, rfl⟩ := List.mem_map.mp hnew
          exact ⟨hpending (List.mem_of_mem_take haction), by simp⟩
      have hrest : pending.drop (downloadConcurrency - inFlight.length) ⊆ all :=
        fun action hmem => hpending (List.mem_of_mem_drop hmem)
      split
      next => exact habout
      next =>
        rw [within_bind, within_perform]
        refine ⟨trivial, fun pick => ?_⟩
        split
        next => exact habout
        next flight hflight =>
          have hown : flight.Of all := hstarted flight (List.mem_of_getElem? hflight)
          have herase := fun index other hmem =>
            hstarted other (List.mem_of_mem_eraseIdx (i := index) hmem)
          rw [within_bind]
          refine (fetchOne_carries crypto stop hown).mono ?_
          rintro (stage | _ | failure) ⟨hreports, hgo⟩
          · apply ih stop hrest _ habout
            intro other hmem
            rcases List.mem_or_eq_of_mem_set hmem with hold | rfl
            · exact hstarted other hold
            · exact ⟨hown.1, fun _ => hgo stage rfl⟩
          · exact ih stop hrest (herase _) habout
          · apply ih _ hrest (herase _)
            apply habout.append
            intro found hfound
            rw [List.mem_singleton.mp hfound, hreports]
            exact List.mem_map.mpr ⟨flight.action, hown.1, rfl⟩

theorem applyDownloads_carries (crypto : Crypto) (downloads : List SyncAction) :
    Within (Effect.Carries downloads) (About downloads) (applyDownloads crypto downloads) := by
  have hpart : ∀ keep : SyncAction → Bool, downloads.filter keep ⊆ downloads :=
    fun keep => List.filter_subset_self downloads
  rw [applyDownloads, within_bind]
  refine (deleteAll_carries fun action hmem => ?_).mono ?_
  · rw [List.mem_filter, decide_eq_true_eq] at hmem
    exact hmem
  intro deleted hdeleted
  rw [within_bind]
  refine (fetchLoop_carries crypto _ _ (hpart _) (by simp) (by simp [About])).mono ?_
  intro fetched hfetched
  exact (hdeleted.mono (hpart _)).append hfetched

theorem applyDownloads_downloads (crypto : Crypto) (downloads : List SyncAction) :
    Within Effect.Downloads (About downloads) (applyDownloads crypto downloads) :=
  (applyDownloads_carries crypto downloads).weaken fun _ => Effect.Carries.downloads

/-! ## The operations on the bookkeeping -/

theorem getManifestIfChanged_books (crypto : Crypto) (ifNoneMatch : Option String) :
    Within Effect.Books (fun _ => True) (getManifestIfChanged crypto ifNoneMatch) := by
  rw [getManifestIfChanged, within_bind, within_perform]
  refine ⟨trivial, ?_⟩
  intro reply
  split
  next => trivial
  next => trivial
  next =>
    split
    next => trivial
    next => trivial

theorem fetchRemoteManifest_books (crypto : Crypto) :
    Within Effect.Books (fun _ => True) (fetchRemoteManifest crypto) := by
  rw [fetchRemoteManifest, within_bind, within_perform]
  refine ⟨trivial, ?_⟩
  intro cached
  rw [within_bind]
  apply (getManifestIfChanged_books crypto _).mono
  intro answer _
  split
  next => trivial
  next =>
    split
    next => trivial
    next =>
      rw [within_bind]
      apply (getManifestIfChanged_books crypto none).mono
      intro again _
      split <;> trivial
  next =>
    split
    next =>
      rw [within_bind, within_perform]
      exact ⟨trivial, fun _ => trivial⟩
    next => trivial

theorem checkpoint_books (crypto : Crypto) (holdBack : List String) :
    Within Effect.Books (fun _ => True) (checkpoint crypto holdBack) := by
  rw [checkpoint, within_bind]
  apply (fetchRemoteManifest_books crypto).mono
  intro remote _
  cases remote with
  | error error => trivial
  | ok remote =>
      rw [within_bind, within_perform]
      refine ⟨trivial, ?_⟩
      intro base
      cases base with
      | error error => trivial
      | ok base =>
          exact ⟨trivial, fun _ => trivial⟩

end ObSink.Engine
