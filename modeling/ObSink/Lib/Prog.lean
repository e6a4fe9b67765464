import Mathlib.Logic.Relation
import Mathlib.Tactic.Common

/-! # Programs that act on a world

A program is a tree of operations, each with a continuation for every reply.
`Holds` is its weakest precondition while others may act on the same world
between two operations: they keep to `rely`, the program keeps to `guarantee`.
`Reaches` is what the program does alone, up to any operation.
-/

inductive Prog (Op : Type) (Reply : Op → Type) (α : Type) : Type
  | pure (value : α)
  | act (op : Op) (next : Reply op → Prog Op Reply α)

namespace Prog

variable {Op : Type} {Reply : Op → Type} {World α β : Type}

def bind : Prog Op Reply α → (α → Prog Op Reply β) → Prog Op Reply β
  | .pure value, f => f value
  | .act op next, f => .act op fun reply => (next reply).bind f

instance : Monad (Prog Op Reply) where
  pure := .pure
  bind := bind

theorem id_map_prog (prog : Prog Op Reply α) : id <$> prog = prog := by
  induction prog with
  | pure value => rfl
  | act op next ih => exact congrArg (Prog.act op) (funext ih)

theorem bind_bind {γ : Type} (prog : Prog Op Reply α) (f : α → Prog Op Reply β)
    (g : β → Prog Op Reply γ) : prog >>= f >>= g = prog >>= fun value => f value >>= g := by
  induction prog with
  | pure value => rfl
  | act op next ih => exact congrArg (Prog.act op) (funext ih)

instance : LawfulMonad (Prog Op Reply) :=
  LawfulMonad.mk' _ id_map_prog (fun _ _ => rfl) bind_bind

/-- One operation. -/
def perform (op : Op) : Prog Op Reply (Reply op) :=
  .act op .pure

/-- What the operations of a program do, what others may do in between, and
what the program owes them for each operation. -/
structure Setting (Op : Type) (Reply : Op → Type) (World : Type) where
  performs : (op : Op) → World → Reply op → World → Prop
  rely : World → World → Prop
  guarantee : World → (op : Op) → Reply op → World → Prop

section Holds

variable (setting : Setting Op Reply World)

/-- Whatever happens in between, every operation of the program keeps the
guarantee, and its result satisfies `post`. -/
def Holds (post : α → World → Prop) : Prog Op Reply α → World → Prop
  | .pure value, world => post value world
  | .act op next, world => ∀ before, setting.rely world before →
      ∀ reply after, setting.performs op before reply after →
        setting.guarantee before op reply after ∧ Holds post (next reply) after

variable {setting} {post post' : α → World → Prop} {world : World}

@[simp] theorem holds_pure (value : α) :
    Holds setting post (Pure.pure value : Prog Op Reply α) world ↔ post value world :=
  Iff.rfl

theorem holds_perform (op : Op) {post : Reply op → World → Prop} :
    Holds setting post (perform op) world ↔ ∀ before, setting.rely world before →
      ∀ reply after, setting.performs op before reply after →
        setting.guarantee before op reply after ∧ post reply after :=
  Iff.rfl

@[simp] theorem holds_bind (prog : Prog Op Reply α) (f : α → Prog Op Reply β)
    {post : β → World → Prop} :
    Holds setting post (prog >>= f) world ↔
      Holds setting (fun value after => Holds setting post (f value) after) prog world := by
  induction prog generalizing world with
  | pure value => exact Iff.rfl
  | act op next ih =>
      constructor
      · intro hholds before hrely reply after hperform
        obtain ⟨hguarantee, hnext⟩ := hholds before hrely reply after hperform
        exact ⟨hguarantee, (ih reply).mp hnext⟩
      · intro hholds before hrely reply after hperform
        obtain ⟨hguarantee, hnext⟩ := hholds before hrely reply after hperform
        exact ⟨hguarantee, (ih reply).mpr hnext⟩

theorem Holds.mono {prog : Prog Op Reply α} (hholds : Holds setting post prog world)
    (hpost : ∀ value after, post value after → post' value after) :
    Holds setting post' prog world := by
  induction prog generalizing world with
  | pure value => exact hpost value world hholds
  | act op next ih =>
      intro before hrely reply after hperform
      obtain ⟨hguarantee, hnext⟩ := hholds before hrely reply after hperform
      exact ⟨hguarantee, ih reply hnext⟩

/-- What holds index by index, each with a guarantee of its own, holds for all
indices together. -/
theorem holds_forall {ι : Type} {performs : (op : Op) → World → Reply op → World → Prop}
    {rely : World → World → Prop}
    {guarantee : ι → World → (op : Op) → Reply op → World → Prop}
    {post : ι → α → World → Prop} {prog : Prog Op Reply α} {world : World}
    (hholds : ∀ i, Holds ⟨performs, rely, guarantee i⟩ (post i) prog world) :
    Holds ⟨performs, rely, fun before op reply after => ∀ i, guarantee i before op reply after⟩
      (fun value after => ∀ i, post i value after) prog world := by
  induction prog generalizing world with
  | pure value => exact hholds
  | act op next ih =>
      intro before hrely reply after hperform
      refine ⟨fun i => ?_, ih reply fun i => ?_⟩
      · exact (hholds i before hrely reply after hperform).1
      · exact (hholds i before hrely reply after hperform).2

/-- Two postconditions, the second with any guarantee. -/
theorem Holds.and {performs : (op : Op) → World → Reply op → World → Prop}
    {rely : World → World → Prop}
    {guarantee guarantee' : World → (op : Op) → Reply op → World → Prop}
    {post post' : α → World → Prop} {prog : Prog Op Reply α} {world : World}
    (hleft : Holds ⟨performs, rely, guarantee⟩ post prog world)
    (hright : Holds ⟨performs, rely, guarantee'⟩ post' prog world) :
    Holds ⟨performs, rely, guarantee⟩ (fun value after => post value after ∧ post' value after) prog
      world := by
  induction prog generalizing world with
  | pure value => exact ⟨hleft, hright⟩
  | act op next ih =>
      intro before hrely reply after hperform
      obtain ⟨hguarantee, hnext⟩ := hleft before hrely reply after hperform
      exact ⟨hguarantee, ih reply hnext (hright before hrely reply after hperform).2⟩

/-- What an operation guarantees beyond `guarantee'` may be left out. -/
theorem Holds.weaken {performs : (op : Op) → World → Reply op → World → Prop}
    {rely : World → World → Prop}
    {guarantee guarantee' : World → (op : Op) → Reply op → World → Prop}
    {post : α → World → Prop} {prog : Prog Op Reply α} {world : World}
    (hholds : Holds ⟨performs, rely, guarantee⟩ post prog world)
    (himp : ∀ before op reply after, guarantee before op reply after →
      guarantee' before op reply after) :
    Holds ⟨performs, rely, guarantee'⟩ post prog world := by
  induction prog generalizing world with
  | pure value => exact hholds
  | act op next ih =>
      intro before hrely reply after hperform
      obtain ⟨hguarantee, hnext⟩ := hholds before hrely reply after hperform
      exact ⟨himp _ _ _ _ hguarantee, ih reply hnext⟩

/-- What others do keeps a program's precondition. -/
theorem Holds.rely {prog : Prog Op Reply α} (hholds : Holds setting post prog world)
    (htrans : ∀ a b c, setting.rely a b → setting.rely b c → setting.rely a c)
    (hpost : ∀ value a b, setting.rely a b → post value a → post value b) {later : World}
    (hrely : setting.rely world later) : Holds setting post prog later := by
  cases prog with
  | pure value => exact hpost value world later hrely hholds
  | act op next =>
      intro before hbefore reply after hperform
      exact hholds before (htrans _ _ _ hrely hbefore) reply after hperform

end Holds

/-- What one operation does from `pre`: its guarantee, and `post`. -/
def Setting.Triple (setting : Setting Op Reply World) (op : Op) (pre : World → Prop)
    (post : Reply op → World → Prop) : Prop :=
  ∀ before reply after, pre before → setting.performs op before reply after →
    setting.guarantee before op reply after ∧ post reply after

theorem Setting.Triple.holds {setting : Setting Op Reply World} {op : Op} {pre : World → Prop}
    {post : Reply op → World → Prop} (htriple : setting.Triple op pre post)
    (hrely : ∀ a b, setting.rely a b → pre a → pre b) {world : World} (hpre : pre world) :
    Holds setting post (perform op) world :=
  fun before hbefore reply after hperform =>
    htriple before reply after (hrely _ _ hbefore hpre) hperform

/-! ## Programs that keep to some operations -/

/-- Every operation of the program is allowed, and its result satisfies `post`
whatever the replies. -/
def Within (allowed : Op → Prop) (post : α → Prop) : Prog Op Reply α → Prop
  | .pure value => post value
  | .act op next => allowed op ∧ ∀ reply, Within allowed post (next reply)

section Within

variable {allowed : Op → Prop} {post : α → Prop}

@[simp] theorem within_pure (value : α) :
    Within allowed post (Pure.pure value : Prog Op Reply α) ↔ post value :=
  Iff.rfl

theorem within_perform (op : Op) {post : Reply op → Prop} :
    Within allowed post (perform op : Prog Op Reply (Reply op)) ↔
      allowed op ∧ ∀ reply, post reply :=
  Iff.rfl

theorem within_bind (prog : Prog Op Reply α) (f : α → Prog Op Reply β) {post : β → Prop} :
    Within allowed post (prog >>= f) ↔
      Within allowed (fun value => Within allowed post (f value)) prog := by
  induction prog with
  | pure value => exact Iff.rfl
  | act op next ih => exact and_congr_right fun _ => forall_congr' ih

theorem Within.mono {prog : Prog Op Reply α} {post' : α → Prop} (hwithin : Within allowed post prog)
    (hpost : ∀ value, post value → post' value) : Within allowed post' prog := by
  induction prog with
  | pure value => exact hpost value hwithin
  | act op next ih => exact ⟨hwithin.1, fun reply => ih reply (hwithin.2 reply)⟩

theorem Within.weaken {prog : Prog Op Reply α} {allowed' : Op → Prop}
    (hwithin : Within allowed post prog) (hallowed : ∀ op, allowed op → allowed' op) :
    Within allowed' post prog := by
  induction prog with
  | pure value => exact hwithin
  | act op next ih => exact ⟨hallowed op hwithin.1, fun reply => ih reply (hwithin.2 reply)⟩

/-- Only the operations a program keeps to matter to it. -/
theorem Holds.of_within {performs : (op : Op) → World → Reply op → World → Prop}
    {rely : World → World → Prop} {guarantee : World → (op : Op) → Reply op → World → Prop}
    {assertion : α → World → Prop} {prog : Prog Op Reply α} {world : World}
    (hwithin : Within allowed post prog)
    (hholds : Holds ⟨fun op before reply after => performs op before reply after ∧ allowed op, rely,
      guarantee⟩ assertion prog world) :
    Holds ⟨performs, rely, guarantee⟩ assertion prog world := by
  induction prog generalizing world with
  | pure value => exact hholds
  | act op next ih =>
      intro before hrely reply after hperform
      obtain ⟨hguarantee, hnext⟩ := hholds before hrely reply after ⟨hperform, hwithin.1⟩
      exact ⟨hguarantee, ih reply (hwithin.2 reply) hnext⟩

/-- An assertion every allowed operation keeps, the guarantee included, holds
after a program of such operations. -/
theorem Within.holds {setting : Setting Op Reply World} {inv : World → Prop}
    {prog : Prog Op Reply α} (hwithin : Within allowed post prog)
    (hrely : ∀ a b, setting.rely a b → inv a → inv b)
    (hkeep : ∀ op, allowed op → setting.Triple op inv fun _ after => inv after)
    {world : World} (hinv : inv world) :
    Holds setting (fun value after => inv after ∧ post value) prog world := by
  induction prog generalizing world with
  | pure value => exact ⟨hinv, hwithin⟩
  | act op next ih =>
      intro before hbefore reply after hperform
      obtain ⟨hguarantee, hafter⟩ :=
        hkeep op hwithin.1 before reply after (hrely _ _ hbefore hinv) hperform
      exact ⟨hguarantee, ih reply (hwithin.2 reply) hafter⟩

/-- Nothing is asked of the program. -/
theorem within_trivial (prog : Prog Op Reply α) :
    Within (fun _ => True) (fun _ => True) prog := by
  induction prog with
  | pure value => trivial
  | act op next ih => exact ⟨trivial, ih⟩

/-- What is known of a program's result whatever the replies. -/
theorem Holds.with_result {setting : Setting Op Reply World} {prog : Prog Op Reply α}
    {assertion : α → World → Prop} {world : World} (hholds : Holds setting assertion prog world)
    (hwithin : Within allowed post prog) :
    Holds setting (fun value after => assertion value after ∧ post value) prog world := by
  induction prog generalizing world with
  | pure value => exact ⟨hholds, hwithin⟩
  | act op next ih =>
      intro before hbefore reply after hperform
      obtain ⟨hguarantee, hnext⟩ := hholds before hbefore reply after hperform
      exact ⟨hguarantee, ih reply hnext (hwithin.2 reply)⟩

end Within

/-! ## Runs -/

/-- The program alone, cut off after any number of operations. -/
inductive Reaches (performs : (op : Op) → World → Reply op → World → Prop) :
    Prog Op Reply α → World → Prog Op Reply α → World → Prop
  | refl (prog : Prog Op Reply α) (world : World) : Reaches performs prog world prog world
  | act {op : Op} {next : Reply op → Prog Op Reply α} {world middle after : World}
      {reply : Reply op} {rest : Prog Op Reply α} (hperform : performs op world reply middle)
      (hrest : Reaches performs (next reply) middle rest after) :
      Reaches performs (.act op next) world rest after

section Runs

variable {performs : (op : Op) → World → Reply op → World → Prop}

theorem Reaches.trans {prog : Prog Op Reply α} {middle rest : Prog Op Reply α}
    {world between after : World} (hfirst : Reaches performs prog world middle between)
    (hrest : Reaches performs middle between rest after) :
    Reaches performs prog world rest after := by
  induction hfirst with
  | refl => exact hrest
  | act hperform _ ih => exact .act hperform (ih hrest)

theorem Reaches.map {prog rest : Prog Op Reply α} {world after : World}
    (hreaches : Reaches performs prog world rest after) (f : α → Prog Op Reply β) :
    Reaches performs (prog >>= f) world (rest >>= f) after := by
  induction hreaches with
  | refl => exact .refl _ _
  | act hperform _ ih => exact .act hperform ih

/-- A program to its end, and on with what follows. -/
theorem Reaches.bind {prog : Prog Op Reply α} {value : α} {f : α → Prog Op Reply β}
    {rest : Prog Op Reply β} {world between after : World}
    (hfirst : Reaches performs prog world (.pure value) between)
    (hrest : Reaches performs (f value) between rest after) :
    Reaches performs (prog >>= f) world rest after :=
  (hfirst.map f).trans hrest

/-- One operation. -/
theorem reaches_perform {op : Op} {reply : Reply op} {world after : World}
    (hperform : performs op world reply after) :
    Reaches performs (perform op : Prog Op Reply (Reply op)) world (.pure reply) after :=
  .act hperform (.refl _ _)

/-- A precondition follows the program along its run. -/
theorem Holds.reaches {rely : World → World → Prop}
    {guarantee : World → (op : Op) → Reply op → World → Prop} (hrely : ∀ world, rely world world)
    {post : α → World → Prop} {prog rest : Prog Op Reply α} {world after : World}
    (hholds : Holds ⟨performs, rely, guarantee⟩ post prog world)
    (hreaches : Reaches performs prog world rest after) :
    Holds ⟨performs, rely, guarantee⟩ post rest after := by
  induction hreaches with
  | refl => exact hholds
  | act hperform _ ih => exact ih (hholds _ (hrely _) _ _ hperform).2

/-- What every operation guarantees holds wherever the run is cut off. -/
theorem Holds.reaches_inv {rely : World → World → Prop}
    {guarantee : World → (op : Op) → Reply op → World → Prop} (hrely : ∀ world, rely world world)
    (inv : World → Prop)
    (hguarantee : ∀ before op reply after, guarantee before op reply after → inv after)
    {post : α → World → Prop} {prog rest : Prog Op Reply α} {world after : World}
    (hholds : Holds ⟨performs, rely, guarantee⟩ post prog world) (hinv : inv world)
    (hreaches : Reaches performs prog world rest after) : inv after := by
  induction hreaches with
  | refl => exact hinv
  | act hperform _ ih =>
      obtain ⟨hstep, hnext⟩ := hholds _ (hrely _) _ _ hperform
      exact ih hnext (hguarantee _ _ _ _ hstep)

/-- Run a program with one environment per operation, as far as they last. -/
def exec {Env : Type} (handle : Env → (op : Op) → World → Reply op × World) :
    Prog Op Reply α → List Env → World → Prog Op Reply α × World
  | .pure value, _, world => (.pure value, world)
  | .act op next, [], world => (.act op next, world)
  | .act op next, env :: rest, world =>
      exec handle (next (handle env op world).1) rest (handle env op world).2

/-- The result of a program that has come to its end. -/
def result? : Prog Op Reply α → Option α
  | .pure value => some value
  | .act _ _ => none

theorem eq_pure_of_result? {prog : Prog Op Reply α} {value : α}
    (hresult : prog.result? = some value) :
    prog = .pure value := by
  cases prog with
  | pure found => exact congrArg Prog.pure (Option.some.inj hresult)
  | act op next => cases hresult

/-- Every operation of an execution passes a check. -/
def execAll {Env : Type} (handle : Env → (op : Op) → World → Reply op × World)
    (check : Env → (op : Op) → World → Bool) : Prog Op Reply α → List Env → World → Bool
  | .pure _, _, _ => true
  | .act _ _, [], _ => true
  | .act op next, env :: rest, world => check env op world &&
      execAll handle check (next (handle env op world).1) rest (handle env op world).2

/-- An execution is a run. -/
theorem exec_reaches {Env : Type} {handle : Env → (op : Op) → World → Reply op × World}
    {check : Env → (op : Op) → World → Bool}
    (hcheck : ∀ env op world, check env op world = true →
      performs op world (handle env op world).1 (handle env op world).2)
    {prog : Prog Op Reply α} {envs : List Env} {world : World}
    (hall : execAll handle check prog envs world = true) :
    Reaches performs prog world (exec handle prog envs world).1
      (exec handle prog envs world).2 := by
  induction envs generalizing prog world with
  | nil => cases prog <;> exact .refl _ _
  | cons env rest ih =>
      cases prog with
      | pure value => exact .refl _ _
      | act op next =>
          simp only [execAll, Bool.and_eq_true] at hall
          exact .act (hcheck env op world hall.1) (ih hall.2)

/-- An execution is a run when every environment will do. -/
theorem exec_reaches_any {Env : Type} {handle : Env → (op : Op) → World → Reply op × World}
    (hperforms : ∀ env op world, performs op world (handle env op world).1 (handle env op world).2)
    (prog : Prog Op Reply α) (envs : List Env) (world : World) :
    Reaches performs prog world (exec handle prog envs world).1
      (exec handle prog envs world).2 := by
  induction envs generalizing prog world with
  | nil => cases prog <;> exact .refl _ _
  | cons env rest ih =>
      cases prog with
      | pure value => exact .refl _ _
      | act op next => exact .act (hperforms env op world) (ih _ _)

/-- What every operation guarantees passes a check along an execution, others
acting in between as the environments say. -/
theorem Holds.execAll {Env : Type} {setting : Setting Op Reply World}
    {handle : Env → (op : Op) → World → Reply op × World} {others : Env → World → World}
    {check : Env → (op : Op) → World → Bool}
    (hrely : ∀ env world, setting.rely world (others env world))
    (hperforms : ∀ env op world,
      setting.performs op (others env world) (handle env op world).1 (handle env op world).2)
    (hcheck : ∀ env op world,
      setting.guarantee (others env world) op (handle env op world).1 (handle env op world).2 →
      check env op world = true)
    {post : α → World → Prop} {prog : Prog Op Reply α} {world : World}
    (hholds : Holds setting post prog world) (envs : List Env) :
    execAll handle check prog envs world = true := by
  induction envs generalizing prog world with
  | nil => cases prog <;> rfl
  | cons env rest ih =>
      cases prog with
      | pure value => rfl
      | act op next =>
          obtain ⟨hguarantee, hnext⟩ := hholds _ (hrely env world) _ _ (hperforms env op world)
          rw [Prog.execAll, hcheck env op world hguarantee, Bool.true_and]
          exact ih hnext

/-- An execution that comes to its end is a run to that end. -/
theorem exec_reaches_pure {Env : Type} {handle : Env → (op : Op) → World → Reply op × World}
    {check : Env → (op : Op) → World → Bool}
    (hcheck : ∀ env op world, check env op world = true →
      performs op world (handle env op world).1 (handle env op world).2)
    {prog : Prog Op Reply α} {envs : List Env} {world : World}
    (hall : execAll handle check prog envs world = true) {value : α}
    (hresult : (exec handle prog envs world).1.result? = some value) :
    Reaches performs prog world (.pure value) (exec handle prog envs world).2 := by
  rw [← eq_pure_of_result? hresult]
  exact exec_reaches hcheck hall

end Runs

end Prog
