import ObSink.Lib.Prog

/-! # Programs side by side

Any number of programs share a world, each with a part of its own, and take
their operations in any order. If each keeps its guarantee whatever the others
do, and the guarantees are what the others rely on, the precondition of every
program follows it through every run.
-/

namespace Prog

variable {Op : Type} {Reply : Op → Type} {Shared Own ι α : Type}

/-- A program on its way, with what only it has. -/
structure Process (Op : Type) (Reply : Op → Type) (Own α : Type) where
  prog : Prog Op Reply α
  own : Own

structure Pool (Op : Type) (Reply : Op → Type) (Shared Own ι α : Type) where
  shared : Shared
  procs : ι → Process Op Reply Own α

/-- What the programs of a pool do, how one that has ended begins anew, and
what happens from outside. -/
structure Rules (Op : Type) (Reply : Op → Type) (Shared Own ι α : Type) where
  performs : ι → (op : Op) → Shared × Own → Reply op → Shared × Own → Prop
  begins : ι → α → Shared × Own → Process Op Reply Own α → Prop
  outside : Shared → Shared → Prop

inductive Step [DecidableEq ι] (rules : Rules Op Reply Shared Own ι α) :
    Pool Op Reply Shared Own ι α → Pool Op Reply Shared Own ι α → Prop
  | act {pool : Pool Op Reply Shared Own ι α} {i : ι} {op : Op} {next : Reply op → Prog Op Reply α}
      {own own' : Own} {reply : Reply op} {shared : Shared}
      (hproc : pool.procs i = ⟨.act op next, own⟩)
      (hperform : rules.performs i op (pool.shared, own) reply (shared, own')) :
      Step rules pool ⟨shared, Function.update pool.procs i ⟨next reply, own'⟩⟩
  | start {pool : Pool Op Reply Shared Own ι α} {i : ι} {value : α} {own : Own}
      {process : Process Op Reply Own α} (hproc : pool.procs i = ⟨.pure value, own⟩)
      (hbegin : rules.begins i value (pool.shared, own) process) :
      Step rules pool { pool with procs := Function.update pool.procs i process }
  | outside {pool : Pool Op Reply Shared Own ι α} {shared : Shared}
      (houtside : rules.outside pool.shared shared) : Step rules pool { pool with shared }

/-- What each program relies on and guarantees, and what it ends with. -/
structure Contract (rules : Rules Op Reply Shared Own ι α) where
  rely : ι → Shared → Shared → Prop
  guarantee : ι → Shared × Own → (op : Op) → Reply op → Shared × Own → Prop
  post : ι → α → Shared × Own → Prop

/-- The setting of one program: others leave its own part alone. -/
def Contract.setting {rules : Rules Op Reply Shared Own ι α} (contract : Contract rules) (i : ι) :
    Setting Op Reply (Shared × Own) where
  performs := rules.performs i
  rely := fun before after => contract.rely i before.1 after.1 ∧ after.2 = before.2
  guarantee := contract.guarantee i

/-- Every program of a pool is within its contract. -/
def Contract.Kept {rules : Rules Op Reply Shared Own ι α} (contract : Contract rules)
    (pool : Pool Op Reply Shared Own ι α) : Prop :=
  ∀ i, Holds (contract.setting i) (contract.post i) (pool.procs i).prog
    (pool.shared, (pool.procs i).own)

structure Contract.Sound {rules : Rules Op Reply Shared Own ι α} (contract : Contract rules) :
    Prop where
  rely_refl : ∀ i shared, contract.rely i shared shared
  rely_trans : ∀ i first second third, contract.rely i first second →
    contract.rely i second third → contract.rely i first third
  post_rely : ∀ i value before after own, contract.rely i before after →
    contract.post i value (before, own) → contract.post i value (after, own)
  others : ∀ i j, i ≠ j → ∀ before op reply after, contract.guarantee i before op reply after →
    contract.rely j before.1 after.1
  outside : ∀ i before after, rules.outside before after → contract.rely i before after
  begins : ∀ i value world process, contract.post i value world →
    rules.begins i value world process →
    Holds (contract.setting i) (contract.post i) process.prog (world.1, process.own)

variable {rules : Rules Op Reply Shared Own ι α} {contract : Contract rules}

/-- What others do to the shared world keeps a program's precondition. -/
theorem Contract.Sound.follow (hsound : contract.Sound) {i : ι} {prog : Prog Op Reply α}
    {before after : Shared} {own : Own} (hrely : contract.rely i before after)
    (hholds : Holds (contract.setting i) (contract.post i) prog (before, own)) :
    Holds (contract.setting i) (contract.post i) prog (after, own) := by
  refine hholds.rely ?_ ?_
    (show (contract.setting i).rely (before, own) (after, own) from ⟨hrely, rfl⟩)
  · rintro first second third ⟨hfirst, hown⟩ ⟨hsecond, hown'⟩
    exact ⟨hsound.rely_trans i _ _ _ hfirst hsecond, hown'.trans hown⟩
  · rintro value ⟨first, own⟩ ⟨second, own'⟩ ⟨hfirst, hown⟩ hpost
    obtain rfl : own' = own := hown
    exact hsound.post_rely i value first second own' hfirst hpost

/-- One step of any program, or from outside. -/
theorem Contract.Sound.step [DecidableEq ι] (hsound : contract.Sound)
    {pool next : Pool Op Reply Shared Own ι α}
    (hkept : contract.Kept pool) (hstep : Step rules pool next) : contract.Kept next := by
  cases hstep with
  | @act i op goOn own own' reply shared hproc hperform =>
      have hhere := hkept i
      rw [hproc] at hhere
      obtain ⟨hguarantee, hnext⟩ :=
        hhere (pool.shared, own) ⟨hsound.rely_refl i _, rfl⟩ reply (shared, own') hperform
      intro j
      by_cases heq : j = i
      · subst heq
        simpa using hnext
      · have hrely := hsound.others i j (Ne.symm heq) _ _ _ _ hguarantee
        simpa [heq] using hsound.follow hrely (hkept j)
  | @start i value own process hproc hbegin =>
      have hhere := hkept i
      rw [hproc] at hhere
      have hfresh := hsound.begins i value (pool.shared, own) process hhere hbegin
      intro j
      by_cases heq : j = i
      · subst heq
        simpa using hfresh
      · simpa [heq] using hkept j
  | outside houtside =>
      exact fun j => hsound.follow (hsound.outside j _ _ houtside) (hkept j)

/-- Every run keeps every contract. -/
theorem Contract.Sound.run [DecidableEq ι] (hsound : contract.Sound)
    {pool after : Pool Op Reply Shared Own ι α}
    (hkept : contract.Kept pool) (hrun : Relation.ReflTransGen (Step rules) pool after) :
    contract.Kept after := by
  induction hrun with
  | refl => exact hkept
  | tail _ hstep ih => exact hsound.step ih hstep

/-- One program goes on while the others wait. -/
theorem Reaches.pool [DecidableEq ι] {i : ι} {prog rest : Prog Op Reply α}
    {before after : Shared × Own} (hreaches : Reaches (rules.performs i) prog before rest after)
    {pool : Pool Op Reply Shared Own ι α} (hshared : pool.shared = before.1)
    (hproc : pool.procs i = ⟨prog, before.2⟩) :
    Relation.ReflTransGen (Step rules) pool
      ⟨after.1, Function.update pool.procs i ⟨rest, after.2⟩⟩ := by
  induction hreaches generalizing pool with
  | refl prog world =>
      obtain ⟨shared, procs⟩ := pool
      obtain rfl : shared = world.1 := hshared
      rw [← hproc, Function.update_eq_self]
  | @act op next world middle after reply rest hperform _ ih =>
      have hstep : Step rules pool
          ⟨middle.1, Function.update pool.procs i ⟨next reply, middle.2⟩⟩ := by
        refine .act hproc ?_
        rw [hshared]
        exact hperform
      refine .head hstep ?_
      simpa using @ih ⟨middle.1, Function.update pool.procs i ⟨next reply, middle.2⟩⟩ rfl (by simp)

end Prog
