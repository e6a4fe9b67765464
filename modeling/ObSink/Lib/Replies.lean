import ObSink.Lib.Prog

/-! # What a program may do

The operations some replies lead a program to, and the results some replies lead
it to, when not every reply has to be reckoned with.
-/

namespace Prog

variable {Op : Type} {Reply : Op → Type} {α β : Type}

/-- Some replies lead to the operation. -/
def Tries (fits : (op : Op) → Reply op → Prop) (target : Op) : Prog Op Reply α → Prop
  | .pure _ => False
  | .act op next => op = target ∨ ∃ reply, fits op reply ∧ Tries fits target (next reply)

/-- Some replies lead to the result. -/
def Yields (fits : (op : Op) → Reply op → Prop) (result : α) : Prog Op Reply α → Prop
  | .pure value => value = result
  | .act op next => ∃ reply, fits op reply ∧ Yields fits result (next reply)

variable {fits : (op : Op) → Reply op → Prop}

@[simp] theorem tries_pure (target : Op) (value : α) :
    ¬ Tries fits target (Pure.pure value : Prog Op Reply α) :=
  id

@[simp] theorem yields_pure {result value : α} :
    Yields fits result (Pure.pure value : Prog Op Reply α) ↔ value = result :=
  Iff.rfl

theorem tries_perform {target op : Op} :
    Tries fits target (perform op : Prog Op Reply (Reply op)) ↔ op = target := by
  constructor
  · rintro (heq | ⟨_, _, hnever⟩)
    · exact heq
    · exact hnever.elim
  · exact Or.inl

theorem yields_perform {op : Op} {reply : Reply op} :
    Yields fits reply (perform op : Prog Op Reply (Reply op)) ↔ fits op reply := by
  constructor
  · rintro ⟨found, hfits, rfl⟩
    exact hfits
  · intro hfits
    exact ⟨reply, hfits, rfl⟩

theorem tries_bind (target : Op) (prog : Prog Op Reply α) (f : α → Prog Op Reply β) :
    Tries fits target (prog >>= f) ↔ Tries fits target prog ∨
      ∃ value, Yields fits value prog ∧ Tries fits target (f value) := by
  induction prog with
  | pure value =>
      constructor
      · intro htries
        exact Or.inr ⟨value, rfl, htries⟩
      · rintro (hnever | ⟨_, rfl, htries⟩)
        · exact hnever.elim
        · exact htries
  | act op next ih =>
      constructor
      · rintro (heq | ⟨reply, hfits, htries⟩)
        · exact Or.inl (Or.inl heq)
        · rcases (ih reply).mp htries with hleft | ⟨value, hyields, hright⟩
          · exact Or.inl (Or.inr ⟨reply, hfits, hleft⟩)
          · exact Or.inr ⟨value, ⟨reply, hfits, hyields⟩, hright⟩
      · rintro ((heq | ⟨reply, hfits, hleft⟩) | ⟨value, ⟨reply, hfits, hyields⟩, hright⟩)
        · exact Or.inl heq
        · exact Or.inr ⟨reply, hfits, (ih reply).mpr (Or.inl hleft)⟩
        · exact Or.inr ⟨reply, hfits, (ih reply).mpr (Or.inr ⟨value, hyields, hright⟩)⟩

theorem yields_bind (result : β) (prog : Prog Op Reply α) (f : α → Prog Op Reply β) :
    Yields fits result (prog >>= f) ↔
      ∃ value, Yields fits value prog ∧ Yields fits result (f value) := by
  induction prog with
  | pure value =>
      constructor
      · intro hyields
        exact ⟨value, rfl, hyields⟩
      · rintro ⟨_, rfl, hyields⟩
        exact hyields
  | act op next ih =>
      constructor
      · rintro ⟨reply, hfits, hyields⟩
        obtain ⟨value, hfirst, hrest⟩ := (ih reply).mp hyields
        exact ⟨value, ⟨reply, hfits, hfirst⟩, hrest⟩
      · rintro ⟨value, ⟨reply, hfits, hfirst⟩, hrest⟩
        exact ⟨reply, hfits, (ih reply).mpr ⟨value, hfirst, hrest⟩⟩

/-- On to the second program. -/
theorem Yields.tries {target : Op} {value : α} {prog : Prog Op Reply α} {f : α → Prog Op Reply β}
    (hyields : Yields fits value prog) (htries : Tries fits target (f value)) :
    Tries fits target (prog >>= f) :=
  (tries_bind target prog f).mpr (Or.inr ⟨value, hyields, htries⟩)

theorem Yields.bind {result : β} {value : α} {prog : Prog Op Reply α} {f : α → Prog Op Reply β}
    (hyields : Yields fits value prog) (hrest : Yields fits result (f value)) :
    Yields fits result (prog >>= f) :=
  (yields_bind result prog f).mpr ⟨value, hyields, hrest⟩

/-- Already in the first program. -/
theorem Tries.bind {target : Op} {prog : Prog Op Reply α} (htries : Tries fits target prog)
    (f : α → Prog Op Reply β) : Tries fits target (prog >>= f) :=
  (tries_bind target prog f).mpr (Or.inl htries)

/-- A program comes to some result when every operation has a reply. -/
theorem exists_yields (hreplies : ∀ op, ∃ reply, fits op reply) (prog : Prog Op Reply α) :
    ∃ result, Yields fits result prog := by
  induction prog with
  | pure value => exact ⟨value, rfl⟩
  | act op next ih =>
      obtain ⟨reply, hfits⟩ := hreplies op
      obtain ⟨result, hyields⟩ := ih reply
      exact ⟨result, reply, hfits, hyields⟩

section Within

variable {allowed : Op → Prop} {post : α → Prop}

/-- A program that keeps to some operations tries no other. -/
theorem Within.tries {prog : Prog Op Reply α} (hwithin : Within allowed post prog) {target : Op}
    (htries : Tries fits target prog) : allowed target := by
  induction prog with
  | pure value => exact htries.elim
  | act op next ih =>
      rcases htries with rfl | ⟨reply, _, hnext⟩
      · exact hwithin.1
      · exact ih reply (hwithin.2 reply) hnext

/-- And comes to no other result than it says. -/
theorem Within.yields {prog : Prog Op Reply α} (hwithin : Within allowed post prog) {result : α}
    (hyields : Yields fits result prog) : post result := by
  induction prog with
  | pure value =>
      obtain rfl : value = result := hyields
      exact hwithin
  | act op next ih =>
      obtain ⟨reply, _, hnext⟩ := hyields
      exact ih reply (hwithin.2 reply) hnext

end Within

end Prog
