import Mathlib.Tactic.Common

/-! # Runs of an event system

A system takes a state and an event to the next state, or refuses the event.
Invariants of its runs are shown step by step; `ok` restricts a run to steps
that meet a condition.
-/

namespace Runs

variable {State Event : Type}

/-- The states of runs whose steps all meet `ok`. -/
inductive Reaches (step : State → Event → Option State) (ok : State → Event → Prop)
    (start : State) : State → Prop
  | start : Reaches step ok start start
  | step {state next : State} {event : Event} (before : Reaches step ok start state)
      (hok : ok state event) (hstep : step state event = some next) : Reaches step ok start next

/-- No condition on the steps. -/
def anything : State → Event → Prop := fun _ _ => True

variable {step : State → Event → Option State} {ok : State → Event → Prop} {start : State}

theorem Reaches.invariant {inv : State → Prop} (hstart : inv start)
    (hstep : ∀ state event next, inv state → ok state event → step state event = some next →
      inv next) {state : State} (hreach : Reaches step ok start state) : inv state := by
  induction hreach with
  | start => exact hstart
  | step _ hok hnext ih => exact hstep _ _ _ ih hok hnext

theorem Reaches.mono {ok' : State → Event → Prop} (himp : ∀ state event, ok state event →
    ok' state event) {state : State} (hreach : Reaches step ok start state) :
    Reaches step ok' start state := by
  induction hreach with
  | start => exact .start
  | step _ hok hnext ih => exact .step ih (himp _ _ hok) hnext

/-- Several events one after the other, as long as they pass a test. -/
def run (step : State → Event → Option State) (test : State → Event → Bool) :
    State → List Event → Option State
  | state, [] => some state
  | state, event :: rest =>
      if test state event then (step state event).bind (run step test · rest) else none

theorem Reaches.run {test : State → Event → Bool}
    (htest : ∀ state event, test state event = true → ok state event) {events : List Event}
    {state final : State} (hreach : Reaches step ok start state)
    (hrun : run step test state events = some final) : Reaches step ok start final := by
  induction events generalizing state with
  | nil =>
      cases hrun
      exact hreach
  | cons event rest ih =>
      unfold Runs.run at hrun
      split at hrun
      next hok =>
        obtain ⟨next, hnext, hrest⟩ := Option.bind_eq_some_iff.mp hrun
        exact ih (hreach.step (htest state event hok) hnext) hrest
      next => cases hrun

end Runs
