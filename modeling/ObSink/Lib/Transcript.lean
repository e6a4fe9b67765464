import ObSink.Lib.Prog

/-! # Finished runs of a program

A transcript lists the operations of a finished run with the replies they got,
whatever world gave them. A program has a transcript for every way to reply.
-/

namespace Prog

variable {Op : Type} {Reply : Op → Type} {α β : Type}

/-- The program ends with `value` after the operations and replies of `events`. -/
inductive Transcript : Prog Op Reply α → List (Σ op : Op, Reply op) → α → Prop
  | pure (value : α) : Transcript (.pure value) [] value
  | act {op : Op} {next : Reply op → Prog Op Reply α} {reply : Reply op}
      {events : List (Σ op : Op, Reply op)} {value : α}
      (hrest : Transcript (next reply) events value) :
      Transcript (.act op next) (⟨op, reply⟩ :: events) value

@[simp] theorem transcript_pure {value result : α} {events : List (Σ op : Op, Reply op)} :
    Transcript (Pure.pure value : Prog Op Reply α) events result ↔
      events = [] ∧ result = value := by
  constructor
  · intro hrun
    cases hrun with
    | pure => exact ⟨rfl, rfl⟩
  · intro hend
    rw [hend.1, hend.2]
    exact .pure value

@[simp] theorem transcript_perform {op : Op} {reply : Reply op}
    {events : List (Σ op : Op, Reply op)} :
    Transcript (perform op : Prog Op Reply (Reply op)) events reply ↔ events = [⟨op, reply⟩] := by
  constructor
  · intro hrun
    cases hrun with
    | act hrest =>
        cases hrest with
        | pure => rfl
  · intro hevents
    rw [hevents]
    exact .act (.pure reply)

/-- A run of one program after the other splits where the first ends. -/
theorem transcript_bind {prog : Prog Op Reply α} {f : α → Prog Op Reply β}
    {events : List (Σ op : Op, Reply op)} {result : β} :
    Transcript (prog >>= f) events result ↔ ∃ first value second,
      events = first ++ second ∧ Transcript prog first value ∧
        Transcript (f value) second result := by
  induction prog generalizing events with
  | pure value =>
      constructor
      · intro hrun
        exact ⟨[], value, events, rfl, .pure value, hrun⟩
      · intro hsplit
        obtain ⟨first, found, second, hevents, hfirst, hsecond⟩ := hsplit
        cases hfirst with
        | pure =>
            rw [hevents]
            exact hsecond
  | act op next ih =>
      constructor
      · intro hrun
        cases hrun with
        | @act _ _ reply later _ hrest =>
            obtain ⟨first, value, second, hevents, hfirst, hsecond⟩ := (ih reply).mp hrest
            refine ⟨⟨op, reply⟩ :: first, value, second, ?_, .act hfirst, hsecond⟩
            rw [hevents, List.cons_append]
      · intro hsplit
        obtain ⟨first, value, second, hevents, hfirst, hsecond⟩ := hsplit
        cases hfirst with
        | @act _ _ reply later _ hrest =>
            rw [hevents, List.cons_append]
            exact .act ((ih reply).mpr ⟨later, value, second, rfl, hrest, hsecond⟩)

end Prog
