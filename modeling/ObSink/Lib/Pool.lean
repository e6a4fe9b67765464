import Mathlib.Logic.Function.Basic
import Mathlib.Tactic.Common

/-! # Jobs under way

Numbered jobs that come in one after the other and go on in any order. A job
can ask whether any other one meets a test, as a lock that others may hold does.
-/

/-- The jobs under way; `begun` have come in so far. -/
structure Pool (Job : Type) where
  job : Nat → Option Job
  begun : Nat
  fresh : ∀ id, begun ≤ id → job id = none

namespace Pool

variable {Job : Type}

def empty : Pool Job := ⟨fun _ => none, 0, fun _ _ => rfl⟩

/-- A new job comes in. -/
def add (pool : Pool Job) (new : Job) : Pool Job where
  job := Function.update pool.job pool.begun (some new)
  begun := pool.begun + 1
  fresh := by
    intro id hid
    rw [Function.update_of_ne (by omega)]
    exact pool.fresh id (by omega)

/-- A job goes on, or ends. -/
def put (pool : Pool Job) (id : Nat) (next : Option Job) : Pool Job where
  job := fun other => if other = id then (pool.job id).bind fun _ => next else pool.job other
  begun := pool.begun
  fresh := by
    intro other hother
    split
    next heq =>
      rw [← heq, pool.fresh other hother, Option.bind_none]
    next => exact pool.fresh other hother

/-- Some job other than `id` meets a test. -/
def anyOther (pool : Pool Job) (id : Nat) (test : Job → Bool) : Bool :=
  (List.range pool.begun).any fun other => other != id && (pool.job other).any test

/-- Every job. -/
def All (pool : Pool Job) (P : Job → Prop) : Prop := ∀ id job, pool.job id = some job → P job

/-- Every two different jobs. -/
def Pairwise (pool : Pool Job) (R : Job → Job → Prop) : Prop :=
  ∀ i j a b, i ≠ j → pool.job i = some a → pool.job j = some b → R a b

variable {pool : Pool Job} {id other : Nat} {found : Job}

theorem add_cases {new : Job} (h : (pool.add new).job other = some found) :
    found = new ∨ other ≠ pool.begun ∧ pool.job other = some found := by
  by_cases hother : other = pool.begun
  · left
    simp only [add, hother, Function.update_self, Option.some.injEq] at h
    exact h.symm
  · right
    simp only [add, Function.update_of_ne hother] at h
    exact ⟨hother, h⟩

theorem put_cases {next : Option Job} (h : (pool.put id next).job other = some found) :
    other = id ∧ next = some found ∨ other ≠ id ∧ pool.job other = some found := by
  unfold put at h
  simp only at h
  split at h
  next heq =>
    obtain ⟨_, -, hnext⟩ := Option.bind_eq_some_iff.mp h
    exact Or.inl ⟨heq, hnext⟩
  next hne => exact Or.inr ⟨hne, h⟩

theorem of_anyOther_eq_false {test : Job → Bool} (h : pool.anyOther id test = false)
    (hother : other ≠ id) (hfound : pool.job other = some found) : test found = false := by
  have hbegun : other < pool.begun := by
    by_contra hnot
    have hnone := pool.fresh other (by omega)
    rw [hfound] at hnone
    cases hnone
  unfold anyOther at h
  rw [List.any_eq_false] at h
  have htest := h other (List.mem_range.mpr hbegun)
  rw [hfound] at htest
  simpa [hother] using htest

theorem All.empty {P : Job → Prop} : (Pool.empty : Pool Job).All P := by
  intro id job hjob
  cases hjob

theorem All.add {P : Job → Prop} (h : pool.All P) {new : Job} (hnew : P new) :
    (pool.add new).All P := by
  intro id job hjob
  obtain rfl | ⟨-, hold⟩ := add_cases hjob
  · exact hnew
  · exact h id job hold

theorem All.put {P : Job → Prop} (h : pool.All P) {next : Option Job}
    (hnext : ∀ job ∈ next, P job) : (pool.put id next).All P := by
  intro other job hjob
  obtain ⟨-, hsome⟩ | ⟨-, hold⟩ := put_cases hjob
  · exact hnext job hsome
  · exact h other job hold

/-- A job goes on, and what it did keeps a property of the others. -/
theorem All.put_of_imp {P Q : Job → Prop} (h : pool.All P) {next : Option Job}
    (hnext : ∀ job ∈ next, Q job)
    (hothers : ∀ other job, other ≠ id → pool.job other = some job → P job → Q job) :
    (pool.put id next).All Q := by
  intro other job hjob
  obtain ⟨-, hsome⟩ | ⟨hne, hold⟩ := put_cases hjob
  · exact hnext job hsome
  · exact hothers other job hne hold (h other job hold)

theorem Pairwise.empty {R : Job → Job → Prop} : (Pool.empty : Pool Job).Pairwise R := by
  intro i j a b _ ha
  cases ha

theorem Pairwise.add {R : Job → Job → Prop} (h : pool.Pairwise R) {new : Job}
    (hleft : ∀ job, R new job) (hright : ∀ job, R job new) : (pool.add new).Pairwise R := by
  intro i j a b hij ha hb
  obtain rfl | ⟨-, ha⟩ := add_cases ha
  · exact hleft b
  · obtain rfl | ⟨-, hb⟩ := add_cases hb
    · exact hright a
    · exact h i j a b hij ha hb

theorem Pairwise.put {R : Job → Job → Prop} (h : pool.Pairwise R) (hsymm : ∀ a b, R a b → R b a)
    {next : Option Job}
    (hnext : ∀ job ∈ next, ∀ other found, other ≠ id → pool.job other = some found →
      R job found) : (pool.put id next).Pairwise R := by
  intro i j a b hij ha hb
  obtain ⟨hi, ha⟩ | ⟨hi, ha⟩ := put_cases ha
  · obtain ⟨hj, -⟩ | ⟨hj, hb⟩ := put_cases hb
    · exact absurd (hi.trans hj.symm) hij
    · exact hnext a ha j b hj hb
  · obtain ⟨-, hb⟩ | ⟨-, hb⟩ := put_cases hb
    · exact hsymm b a (hnext b hb i a hi ha)
    · exact h i j a b hij ha hb

end Pool
