import Mathlib.Logic.Relation
import Mathlib.Tactic.Common

/-! # Critical sections under one lock

Calls arrive at any time and wait for a lock. The call that holds it runs its
critical section in several small steps, interleaved with the arrival of other
calls. Every reachable configuration is explained by a serial execution of the
finished calls in the order they took the lock.
-/

namespace Critical

/-- A critical section: where a call starts, and one step of it, which either
goes on or releases the lock with an answer. -/
structure Machine (Shared Call Stage Answer : Type) where
  enter : Stage
  step : Call → Stage → Shared → (Stage ⊕ Answer) × Shared

variable {Shared Call Stage Answer : Type} (machine : Machine Shared Call Stage Answer)

structure Config (Shared Call Stage Answer : Type) where
  shared : Shared
  waiting : List Call
  holder : Option (Call × Stage)
  log : List (Call × Answer)

def Config.start (shared : Shared) : Config Shared Call Stage Answer where
  shared := shared
  waiting := []
  holder := none
  log := []

inductive Step : Config Shared Call Stage Answer → Config Shared Call Stage Answer → Prop
  | submit (config : Config Shared Call Stage Answer) (call : Call) :
      Step config { config with waiting := config.waiting ++ [call] }
  | acquire (config : Config Shared Call Stage Answer) (before after : List Call) (call : Call)
      (hfree : config.holder = none) (hwaiting : config.waiting = before ++ call :: after) :
      Step config
        { config with waiting := before ++ after, holder := some (call, machine.enter) }
  | advance (config : Config Shared Call Stage Answer) (call : Call) (stage next : Stage)
      (shared : Shared) (hholder : config.holder = some (call, stage))
      (hstep : machine.step call stage config.shared = (.inl next, shared)) :
      Step config { config with shared, holder := some (call, next) }
  | release (config : Config Shared Call Stage Answer) (call : Call) (stage : Stage)
      (answer : Answer) (shared : Shared) (hholder : config.holder = some (call, stage))
      (hstep : machine.step call stage config.shared = (.inr answer, shared)) :
      Step config
        { config with shared, holder := none, log := config.log ++ [(call, answer)] }

/-- Part of a critical section, with nobody else in between. -/
inductive Partial (call : Call) (shared : Shared) : Stage → Shared → Prop
  | enter : Partial call shared machine.enter shared
  | step {stage next : Stage} {middle after : Shared} (before : Partial call shared stage middle)
      (hstep : machine.step call stage middle = (.inl next, after)) :
      Partial call shared next after

/-- A whole critical section, with nobody else in between. -/
inductive Whole (call : Call) (shared : Shared) : Answer → Shared → Prop
  | release {stage : Stage} {middle after : Shared} {answer : Answer}
      (before : Partial machine call shared stage middle)
      (hstep : machine.step call stage middle = (.inr answer, after)) :
      Whole call shared answer after

/-- Calls one after the other, each alone. -/
inductive Serial (start : Shared) : List (Call × Answer) → Shared → Prop
  | nil : Serial start [] start
  | snoc {log : List (Call × Answer)} {middle after : Shared} {call : Call} {answer : Answer}
      (before : Serial start log middle) (hwhole : Whole machine call middle answer after) :
      Serial start (log ++ [(call, answer)]) after

/-- The finished calls explain the shared state, up to the part of its section
the holder has run. -/
def Explained (start : Shared) (config : Config Shared Call Stage Answer) : Prop :=
  ∃ settled, Serial machine start config.log settled ∧
    match config.holder with
    | none => config.shared = settled
    | some (call, stage) => Partial machine call settled stage config.shared

theorem Step.explained {start : Shared} {config next : Config Shared Call Stage Answer}
    (hstep : Step machine config next) (hconfig : Explained machine start config) :
    Explained machine start next := by
  obtain ⟨settled, hserial, hholder⟩ := hconfig
  cases hstep with
  | submit call => exact ⟨settled, hserial, hholder⟩
  | acquire before after call hfree hwaiting =>
      rw [hfree] at hholder
      simp only at hholder
      refine ⟨settled, hserial, ?_⟩
      simp only [hholder]
      exact .enter
  | advance call stage next shared hsome hadvance =>
      rw [hsome] at hholder
      exact ⟨settled, hserial, .step hholder hadvance⟩
  | release call stage answer shared hsome hrelease =>
      rw [hsome] at hholder
      exact ⟨shared, .snoc hserial (.release hholder hrelease), rfl⟩

/-- Whatever the interleaving, the finished calls are a serial execution. -/
theorem explained_of_reachable {start : Shared} {config : Config Shared Call Stage Answer}
    (hreach : Relation.ReflTransGen (Step machine) (.start start) config) :
    Explained machine start config := by
  induction hreach with
  | refl => exact ⟨start, .nil, rfl⟩
  | tail _ hstep ih => exact hstep.explained machine ih

/-- A call that has taken the lock can run any part of its section. -/
theorem Partial.run {call : Call} {shared middle : Shared} {stage : Stage}
    (hpart : Partial machine call shared stage middle)
    (config : Config Shared Call Stage Answer) :
    Relation.ReflTransGen (Step machine)
      { config with shared, holder := some (call, machine.enter) }
      { config with shared := middle, holder := some (call, stage) } := by
  induction hpart with
  | enter => exact .refl
  | @step stage next middle after _ hstep ih =>
      refine ih.tail ?_
      exact Step.advance _ call stage next after rfl hstep

/-- From a free lock, a call can arrive, take it and run its whole section. -/
theorem Whole.run {call : Call} {after : Shared} {answer : Answer}
    {config : Config Shared Call Stage Answer} (hfree : config.holder = none)
    (hwhole : Whole machine call config.shared answer after) :
    Relation.ReflTransGen (Step machine) config
      { config with shared := after, log := config.log ++ [(call, answer)] } := by
  obtain ⟨shared, waiting, holder, log⟩ := config
  obtain rfl : holder = none := hfree
  cases hwhole with
  | @release stage middle _ _ hpart hstep =>
      have hsubmit : Step machine ⟨shared, waiting, none, log⟩
          ⟨shared, waiting ++ [call], none, log⟩ := Step.submit _ call
      have hacquire : Step machine ⟨shared, waiting ++ [call], none, log⟩
          ⟨shared, waiting ++ [], some (call, machine.enter), log⟩ :=
        Step.acquire _ waiting [] call rfl rfl
      have hrun := hpart.run machine ⟨shared, waiting, none, log⟩
      have hrelease : Step machine ⟨middle, waiting, some (call, stage), log⟩
          ⟨after, waiting, none, log ++ [(call, answer)]⟩ :=
        Step.release _ call stage answer after rfl hstep
      rw [List.append_nil] at hacquire
      exact (((Relation.ReflTransGen.single hsubmit).tail hacquire).trans hrun).tail hrelease

end Critical
