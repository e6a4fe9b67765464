import ObSink.Lib.Prog

/-! # Two programs under the same answers

Whoever answers a program may look at everything that was answered before.
`play` runs a program under such answers and keeps the events, but for silent
operations. `Together` relates two programs that do the same operations, one
after the other, whatever the allowed replies; the first may do silent ones on
its own. Programs that go together have the same events under the same answers.
-/

namespace Prog

variable {Op : Type} {Reply : Op → Type} {α β γ δ : Type}

/-- An operation with its reply. -/
abbrev Event (Op : Type) (Reply : Op → Type) := (op : Op) × Reply op

/-- The reply to an operation, after the given events. -/
abbrev Answers (Op : Type) (Reply : Op → Type) :=
  List (Event Op Reply) → (op : Op) → Reply op

/-- The result of a program and the events so far. -/
def play (silent : Op → Bool) (answer : Answers Op Reply) :
    Prog Op Reply α → List (Event Op Reply) → α × List (Event Op Reply)
  | .pure value, events => (value, events)
  | .act op next, events =>
      play silent answer (next (answer events op))
        (if silent op then events else events ++ [⟨op, answer events op⟩])

section Play

variable (silent : Op → Bool) (answer : Answers Op Reply)

theorem play_bind (prog : Prog Op Reply α) (f : α → Prog Op Reply β)
    (events : List (Event Op Reply)) :
    play silent answer (prog >>= f) events =
      play silent answer (f (play silent answer prog events).1)
        (play silent answer prog events).2 := by
  induction prog generalizing events with
  | pure value => rfl
  | act op next ih => exact ih _ _

theorem play_perform {op : Op} (hsilent : silent op = false) (events : List (Event Op Reply)) :
    play silent answer (perform op) events =
      (answer events op, events ++ [⟨op, answer events op⟩]) := by
  simp only [perform, play, hsilent, Bool.false_eq_true, if_false]

/-- Events are never taken back. -/
theorem prefix_play (prog : Prog Op Reply α) (events : List (Event Op Reply)) :
    events <+: (play silent answer prog events).2 := by
  induction prog generalizing events with
  | pure value => exact List.prefix_refl _
  | act op next ih =>
      have hstep : events <+: if silent op then events else events ++ [⟨op, answer events op⟩] := by
        split
        · exact List.prefix_refl _
        · exact List.prefix_append _ _
      exact hstep.trans (ih _ _)

end Play

/-- Both go well with related results, or both fail. -/
inductive BothEnd {ε ε' : Type} (related : α → β → Prop) : Except ε α → Except ε' β → Prop
  | ok (value : α) (value' : β) (hrelated : related value value') :
      BothEnd related (.ok value) (.ok value')
  | error (error : ε) (error' : ε') : BothEnd related (.error error) (.error error')

/-- Both programs do the same operations whatever the allowed replies, but for
silent ones of the first, and end related by `post`. -/
inductive Together (silent : Op → Bool) (allowed : (op : Op) → Reply op → Prop)
    (post : α → β → Prop) : Prog Op Reply α → Prog Op Reply β → Prop
  | pure {value : α} {value' : β} (hpost : post value value') :
      Together silent allowed post (.pure value) (.pure value')
  | act {op : Op} {next : Reply op → Prog Op Reply α} {next' : Reply op → Prog Op Reply β}
      (hnext : ∀ reply, allowed op reply →
        Together silent allowed post (next reply) (next' reply)) :
      Together silent allowed post (.act op next) (.act op next')
  | alone {op : Op} {next : Reply op → Prog Op Reply α} {second : Prog Op Reply β}
      (hsilent : silent op = true)
      (hnext : ∀ reply, allowed op reply → Together silent allowed post (next reply) second) :
      Together silent allowed post (.act op next) second

section Together

variable {silent : Op → Bool} {allowed : (op : Op) → Reply op → Prop} {post : α → β → Prop}

theorem Together.mono {post' : α → β → Prop} {first : Prog Op Reply α} {second : Prog Op Reply β}
    (htogether : Together silent allowed post first second)
    (hpost : ∀ value value', post value value' → post' value value') :
    Together silent allowed post' first second := by
  induction htogether with
  | pure hend => exact .pure (hpost _ _ hend)
  | act _ ih => exact .act ih
  | alone hsilent _ ih => exact .alone hsilent ih

theorem Together.bind {middle : γ → δ → Prop} {first : Prog Op Reply γ} {second : Prog Op Reply δ}
    (htogether : Together silent allowed middle first second) {f : γ → Prog Op Reply α}
    {g : δ → Prog Op Reply β}
    (hrest : ∀ value value', middle value value' →
      Together silent allowed post (f value) (g value')) :
    Together silent allowed post (first >>= f) (second >>= g) := by
  induction htogether with
  | pure hend => exact hrest _ _ hend
  | act _ ih => exact .act ih
  | alone hsilent _ ih => exact .alone hsilent ih

/-- The second program has ended when the first goes on. -/
theorem Together.bind_left {middle : γ → β → Prop} {first : Prog Op Reply γ}
    {second : Prog Op Reply β} (htogether : Together silent allowed middle first second)
    {f : γ → Prog Op Reply α}
    (hrest : ∀ value value', middle value value' →
      Together silent allowed post (f value) (Pure.pure value')) :
    Together silent allowed post (first >>= f) second := by
  have hboth := htogether.bind (g := Pure.pure) hrest
  rwa [bind_pure] at hboth

/-- One operation of both. -/
theorem together_perform (op : Op) {f : Reply op → Prog Op Reply α} {g : Reply op → Prog Op Reply β}
    (hrest : ∀ reply, allowed op reply → Together silent allowed post (f reply) (g reply)) :
    Together silent allowed post (perform op >>= f) (perform op >>= g) :=
  .act hrest

/-- Under the same answers the events are the same and the results related. -/
theorem Together.play {first : Prog Op Reply α} {second : Prog Op Reply β}
    (htogether : Together silent allowed post first second) {answer : Answers Op Reply}
    {events : List (Event Op Reply)}
    (hallowed : ∀ later, events <+: later → ∀ op, allowed op (answer later op)) :
    post (first.play silent answer events).1 (second.play silent answer events).1 ∧
      (first.play silent answer events).2 = (second.play silent answer events).2 := by
  induction htogether generalizing events with
  | pure hpost => exact ⟨hpost, rfl⟩
  | act hnext ih =>
      apply ih _ (hallowed events (List.prefix_refl _) _)
      intro later hlater
      apply hallowed later
      refine List.IsPrefix.trans ?_ hlater
      split
      · exact List.prefix_refl _
      · exact List.prefix_append _ _
  | alone hsilent hnext ih =>
      simp only [Prog.play, hsilent, if_true]
      exact ih _ (hallowed events (List.prefix_refl _) _) hallowed

end Together

end Prog
