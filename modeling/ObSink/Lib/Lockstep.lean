import ObSink.Lib.Prog

/-! # Two programs side by side

Two programs that take one operation each in turn, under the same
circumstances, each in a world of its own. `Lockstep` relates what they end
with; it composes along `bind`, and a program that only looks at what two worlds
have in common keeps step with itself.
-/

namespace Prog

variable {Op Env : Type} {Reply : Op → Type} {World α β γ δ : Type}
variable (handle : Env → (op : Op) → World → Reply op × World)

/-- Both programs end after the same number of operations, related by `post`. -/
def Lockstep (post : α → World → β → World → Prop) :
    Prog Op Reply α → World → Prog Op Reply β → World → Prop
  | .pure value, world, .pure value', world' => post value world value' world'
  | .act op next, world, .act op' next', world' => ∀ env,
      Lockstep post (next (handle env op world).1) (handle env op world).2
        (next' (handle env op' world').1) (handle env op' world').2
  | .pure _, _, .act _ _, _ => False
  | .act _ _, _, .pure _, _ => False

variable {handle} {post : α → World → β → World → Prop}

@[simp] theorem lockstep_pure {value : α} {value' : β} {world world' : World} :
    Lockstep handle post (Pure.pure value) world (Pure.pure value') world' ↔
      post value world value' world' :=
  Iff.rfl

theorem Lockstep.mono {post' : α → World → β → World → Prop} {first : Prog Op Reply α}
    {second : Prog Op Reply β} {world world' : World}
    (hlockstep : Lockstep handle post first world second world')
    (hpost : ∀ value after value' after', post value after value' after' →
      post' value after value' after') :
    Lockstep handle post' first world second world' := by
  induction first generalizing second world world' with
  | pure value =>
      cases second with
      | pure value' => exact hpost _ _ _ _ hlockstep
      | act op' next' => exact hlockstep
  | act op next ih =>
      cases second with
      | pure value' => exact hlockstep
      | act op' next' => exact fun env => ih _ (hlockstep env)

theorem Lockstep.bind {first : Prog Op Reply γ} {second : Prog Op Reply δ} {world world' : World}
    {middle : γ → World → δ → World → Prop}
    (hlockstep : Lockstep handle middle first world second world') {f : γ → Prog Op Reply α}
    {g : δ → Prog Op Reply β}
    (hrest : ∀ value after value' after', middle value after value' after' →
      Lockstep handle post (f value) after (g value') after') :
    Lockstep handle post (first >>= f) world (second >>= g) world' := by
  induction first generalizing second world world' with
  | pure value =>
      cases second with
      | pure value' => exact hrest _ _ _ _ hlockstep
      | act op' next' => exact hlockstep.elim
  | act op next ih =>
      cases second with
      | pure value' => exact hlockstep.elim
      | act op' next' => exact fun env => ih _ (hlockstep env)

/-- A program of operations that reply alike in related worlds, and keep them
related, does the same in both. -/
theorem Within.lockstep {allowed : Op → Prop} {result : α → Prop} {prog : Prog Op Reply α}
    (hwithin : Within allowed result prog) {related : World → World → Prop}
    (hkeep : ∀ env op world world', allowed op → related world world' →
      (handle env op world).1 = (handle env op world').1 ∧
        related (handle env op world).2 (handle env op world').2)
    {world world' : World} (hrelated : related world world') :
    Lockstep handle (fun value after value' after' =>
      value = value' ∧ result value ∧ related after after') prog world prog world' := by
  induction prog generalizing world world' with
  | pure value => exact ⟨rfl, hwithin, hrelated⟩
  | act op next ih =>
      intro env
      obtain ⟨hreply, hafter⟩ := hkeep env op world world' hwithin.1 hrelated
      rw [← hreply]
      exact ih _ (hwithin.2 _) hafter

/-- Under the same circumstances both programs have ended, related by `post`,
or neither has. -/
theorem Lockstep.exec {first : Prog Op Reply α} {second : Prog Op Reply β} {world world' : World}
    (hlockstep : Lockstep handle post first world second world') (envs : List Env) :
    (∃ value value', (Prog.exec handle first envs world).1 = .pure value ∧
      (Prog.exec handle second envs world').1 = .pure value' ∧
      post value (Prog.exec handle first envs world).2 value'
        (Prog.exec handle second envs world').2) ∨
    (Prog.exec handle first envs world).1.result? = none ∧
      (Prog.exec handle second envs world').1.result? = none := by
  induction envs generalizing first second world world' with
  | nil =>
      cases first with
      | pure value =>
          cases second with
          | pure value' => exact Or.inl ⟨value, value', rfl, rfl, hlockstep⟩
          | act op' next' => exact hlockstep.elim
      | act op next =>
          cases second with
          | pure value' => exact hlockstep.elim
          | act op' next' => exact Or.inr ⟨rfl, rfl⟩
  | cons env rest ih =>
      cases first with
      | pure value =>
          cases second with
          | pure value' => exact Or.inl ⟨value, value', rfl, rfl, hlockstep⟩
          | act op' next' => exact hlockstep.elim
      | act op next =>
          cases second with
          | pure value' => exact hlockstep.elim
          | act op' next' => exact ih (hlockstep env)

end Prog
