import Mathlib.Logic.Basic
import Mathlib.Tactic.Common

/-! # Taking turns

Parties act one after the other. `Replicas` is one value that a centre keeps for
all of them, each with a working copy and a mark of what it last had in common
with the centre. Whoever has its turn ends in line with the centre; who has not
touched its copy takes the centre's value, and who alone has touched it sets it.
Two rounds bring all into line.
-/

variable {ι σ τ : Type}

/-- The parties of the list take their turns, the first one first. -/
def Rota (turn : ι → σ → σ → Prop) : List ι → σ → σ → Prop
  | [], before, after => after = before
  | i :: rest, before, after => ∃ middle, turn i before middle ∧ Rota turn rest middle after

namespace Rota

variable {turn : ι → σ → σ → Prop} {order : List ι} {before middle after : σ}

theorem trans {later : List ι} (hfirst : Rota turn order before middle)
    (hlater : Rota turn later middle after) : Rota turn (order ++ later) before after := by
  induction order generalizing before with
  | nil =>
      obtain rfl : middle = before := hfirst
      exact hlater
  | cons i rest ih =>
      obtain ⟨next, hturn, hrest⟩ := hfirst
      exact ⟨next, hturn, ih hrest⟩

theorem invariant {inv : σ → Prop} (hstep : ∀ i a b, inv a → turn i a b → inv b)
    (hstart : inv before) (hturns : Rota turn order before after) : inv after := by
  induction order generalizing before with
  | nil =>
      obtain rfl : after = before := hturns
      exact hstart
  | cons i rest ih =>
      obtain ⟨next, hturn, hrest⟩ := hturns
      exact ih (hstep i _ _ hstart hturn) hrest

/-- What is settled at each party's own turn, and by nobody else undone. -/
theorem each (inv : σ → Prop) (done : ι → σ → Prop)
    (hstep : ∀ i a b, inv a → turn i a b → inv b ∧ done i b ∧ ∀ j, j ≠ i → done j a → done j b)
    (hstart : inv before) (hturns : Rota turn order before after) {i : ι}
    (hi : i ∈ order ∨ done i before) : done i after := by
  induction order generalizing before with
  | nil =>
      obtain rfl : after = before := hturns
      simpa using hi
  | cons first rest ih =>
      obtain ⟨next, hturn, hrest⟩ := hturns
      obtain ⟨hinv, hdone, hothers⟩ := hstep first _ _ hstart hturn
      refine ih hinv hrest ?_
      by_cases heq : i = first
      · subst heq
        exact .inr hdone
      · rcases hi with hmem | hbefore
        · exact .inl (by simpa [heq] using hmem)
        · exact .inr (hothers i heq hbefore)

/-- A simulation of each turn is one of them all. -/
theorem map {turn' : ι → τ → τ → Prop} {inv : σ → Prop} {view : σ → τ}
    (hstep : ∀ i a b, inv a → turn i a b → inv b ∧ turn' i (view a) (view b))
    (hstart : inv before) (hturns : Rota turn order before after) :
    inv after ∧ Rota turn' order (view before) (view after) := by
  induction order generalizing before with
  | nil =>
      obtain rfl : after = before := hturns
      exact ⟨hstart, rfl⟩
  | cons i rest ih =>
      obtain ⟨next, hturn, hrest⟩ := hturns
      obtain ⟨hinv, hturn'⟩ := hstep i _ _ hstart hturn
      obtain ⟨hend, hrest'⟩ := ih hinv hrest
      exact ⟨hend, _, hturn', hrest'⟩

end Rota

/-! ## Copies of one value -/

structure Replicas (ι V : Type) where
  centre : V
  copy : ι → V
  mark : ι → V

namespace Replicas

variable {V : Type} {follows : ι → Prop}

/-- A party's turn; one that does not follow the value leaves it alone. -/
structure Turn (follows : ι → Prop) (i : ι) (before after : Replicas ι V) : Prop where
  others : ∀ j, j ≠ i → after.copy j = before.copy j ∧ after.mark j = before.mark j
  level : follows i → after.copy i = after.centre ∧ after.mark i = after.centre
  pulled : follows i → before.copy i = before.mark i → after.centre = before.centre
  pushed : follows i → before.centre = before.mark i → after.centre = before.copy i
  ignored : ¬ follows i → after.centre = before.centre

/-- Nothing of the party waits for its turn. -/
def Settled (replicas : Replicas ι V) (i : ι) : Prop := replicas.copy i = replicas.mark i

/-- The party is in line with the centre. -/
def Level (replicas : Replicas ι V) (i : ι) : Prop :=
  replicas.copy i = replicas.centre ∧ replicas.mark i = replicas.centre

variable {start middle finish : Replicas ι V} {first second : List ι}

/-- After a round nothing waits. -/
theorem settled_of_round (hall : ∀ i, follows i → i ∈ first)
    (hturns : Rota (Turn follows) first start middle) {i : ι} (hi : follows i) :
    middle.Settled i := by
  refine Rota.each (fun _ => True) (fun j replicas => follows j → replicas.Settled j) ?_ trivial
    hturns (.inl (hall i hi)) hi
  intro j a b _ hturn
  refine ⟨trivial, ?_, ?_⟩
  · intro hj
    exact (hturn.level hj).1.trans (hturn.level hj).2.symm
  · intro k hne hsettled hk
    obtain ⟨hcopy, hmark⟩ := hturn.others k hne
    exact hcopy.trans ((hsettled hk).trans hmark.symm)

/-- With nothing waiting, a turn leaves the centre as it is. -/
theorem Turn.centre_of_settled {i : ι} {before after : Replicas ι V}
    (hturn : Turn follows i before after) (hsettled : follows i → before.Settled i) :
    after.centre = before.centre := by
  by_cases hi : follows i
  · exact hturn.pulled hi (hsettled hi)
  · exact hturn.ignored hi

/-- And still nothing waits. -/
theorem Turn.settled {i : ι} {before after : Replicas ι V} (hturn : Turn follows i before after)
    (hsettled : ∀ j, follows j → before.Settled j) {j : ι} (hj : follows j) : after.Settled j := by
  by_cases heq : j = i
  · subst heq
    exact (hturn.level hj).1.trans (hturn.level hj).2.symm
  · obtain ⟨hcopy, hmark⟩ := hturn.others j heq
    exact hcopy.trans ((hsettled j hj).trans hmark.symm)

/-- After a second round all are in line with what the first one left. -/
theorem level_of_rounds (hfirst : ∀ i, follows i → i ∈ first)
    (hsecond : ∀ i, follows i → i ∈ second) (hstart : Rota (Turn follows) first start middle)
    (hfinish : Rota (Turn follows) second middle finish) {i : ι} (hi : follows i) :
    finish.centre = middle.centre ∧ finish.Level i := by
  let still := fun replicas : Replicas ι V =>
    replicas.centre = middle.centre ∧ ∀ j, follows j → replicas.Settled j
  have hstill : ∀ j a b, still a → Turn follows j a b → still b := by
    rintro j a b ⟨hcentre, hsettled⟩ hturn
    exact ⟨(hturn.centre_of_settled (hsettled j)).trans hcentre, fun k hk =>
      hturn.settled hsettled hk⟩
  have hmiddle : still middle := ⟨rfl, fun j hj => settled_of_round hfirst hstart hj⟩
  refine ⟨(hfinish.invariant hstill hmiddle).1, ?_⟩
  refine Rota.each still (fun j replicas => follows j → replicas.Level j) ?_ hmiddle hfinish
    (.inl (hsecond i hi)) hi
  intro j a b ha hturn
  refine ⟨hstill j a b ha hturn, hturn.level, ?_⟩
  intro k hne hlevel hk
  obtain ⟨hcopy, hmark⟩ := hturn.others k hne
  have hcentre := hturn.centre_of_settled (ha.2 j)
  exact ⟨hcopy.trans ((hlevel hk).1.trans hcentre.symm),
    hmark.trans ((hlevel hk).2.trans hcentre.symm)⟩

/-- Only this party's copy may be other than the centre's value. -/
structure Lone (follows : ι → Prop) (i : ι) (replicas : Replicas ι V) : Prop where
  here : follows i
  mark : replicas.mark i = replicas.centre
  others : ∀ j, j ≠ i → follows j → replicas.Level j

theorem Level.settled {replicas : Replicas ι V} {i : ι} (hlevel : replicas.Level i) :
    replicas.Settled i :=
  hlevel.1.trans hlevel.2.symm

/-- Others have their turns: the copy is not touched. -/
theorem Lone.other {i j : ι} {before after : Replicas ι V} (hlone : Lone follows i before)
    (hturn : Turn follows j before after) (hne : j ≠ i) :
    Lone follows i after ∧ after.copy i = before.copy i := by
  have hcentre := hturn.centre_of_settled fun hj => (hlone.others j hne hj).settled
  obtain ⟨hcopy, hmark⟩ := hturn.others i (Ne.symm hne)
  refine ⟨⟨hlone.here, hmark.trans (hlone.mark.trans hcentre.symm), ?_⟩, hcopy⟩
  intro k hki hk
  by_cases heq : k = j
  · subst heq
    exact hturn.level hk
  · obtain ⟨hcopyk, hmarkk⟩ := hturn.others k heq
    obtain ⟨hlevel, hmarked⟩ := hlone.others k hki hk
    exact ⟨hcopyk.trans (hlevel.trans hcentre.symm), hmarkk.trans (hmarked.trans hcentre.symm)⟩

/-- At its turn the copy becomes the centre's value. -/
theorem Lone.turn {i : ι} {before after : Replicas ι V} (hlone : Lone follows i before)
    (hturn : Turn follows i before after) :
    after.centre = before.copy i ∧ ∀ j, follows j → after.Settled j := by
  refine ⟨hturn.pushed hlone.here hlone.mark.symm, ?_⟩
  intro j hj
  by_cases heq : j = i
  · subst heq
    exact Level.settled (hturn.level hj)
  · obtain ⟨hcopy, hmark⟩ := hturn.others j heq
    exact hcopy.trans ((hlone.others j heq hj).settled.trans hmark.symm)

/-- What one party alone has touched becomes the centre's value. -/
theorem centre_of_lone {i : ι} (hlone : Lone follows i start)
    (hfirst : ∀ i, follows i → i ∈ first) (hstart : Rota (Turn follows) first start middle) :
    middle.centre = start.copy i := by
  let spread := fun replicas : Replicas ι V =>
    replicas.centre = start.copy i ∧ ∀ j, follows j → replicas.Settled j
  let inv := fun replicas : Replicas ι V =>
    spread replicas ∨ Lone follows i replicas ∧ replicas.copy i = start.copy i
  have hspread : ∀ j a b, Turn follows j a b → spread a → spread b := by
    rintro j a b hturn ⟨hcentre, hsettled⟩
    exact ⟨(hturn.centre_of_settled (hsettled j)).trans hcentre,
      fun k hk => hturn.settled hsettled hk⟩
  have hstep : ∀ j a b, inv a → Turn follows j a b →
      inv b ∧ (j = i → spread b) ∧ ∀ k, k ≠ j → (k = i → spread a) → k = i → spread b := by
    intro j a b ha hturn
    have hown : j = i → spread b := by
      rintro rfl
      rcases ha with hdone | ⟨hlone, hcopy⟩
      · exact hspread j a b hturn hdone
      · obtain ⟨hcentre, hsettled⟩ := hlone.turn hturn
        exact ⟨hcentre.trans hcopy, hsettled⟩
    refine ⟨?_, hown, fun k _ hbefore hk => hspread j a b hturn (hbefore hk)⟩
    by_cases hj : j = i
    · exact .inl (hown hj)
    · rcases ha with hdone | ⟨hlone, hcopy⟩
      · exact .inl (hspread j a b hturn hdone)
      · obtain ⟨hlater, hkept⟩ := hlone.other hturn hj
        exact .inr ⟨hlater, hkept.trans hcopy⟩
  have hdone := Rota.each inv (fun j replicas => j = i → spread replicas) hstep
    (.inr ⟨hlone, rfl⟩) hstart (.inl (hfirst i hlone.here)) rfl
  exact hdone.1

end Replicas
