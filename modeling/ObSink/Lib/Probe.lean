import Mathlib.Data.Finset.Card
import Mathlib.Data.List.Basic
import Mathlib.Tactic.Common

/-! # Probing for a free name

A probing loop tries candidate names in order until one is not taken. With at
most as many taken names as attempts, and pairwise different candidates, the
name it returns is free.
-/

namespace Probe

variable {α : Type}

/-- The first candidate from `start` on that is not taken; after `fuel` taken
candidates the next one is returned unchecked. -/
def firstFree (candidate : Nat → α) (taken : α → Bool) : Nat → Nat → α
  | 0, start => candidate start
  | fuel + 1, start =>
      if taken (candidate start) then firstFree candidate taken fuel (start + 1)
      else candidate start

/-- Either the name found is free, or every candidate up to it is taken. -/
theorem firstFree_free_or (candidate : Nat → α) (taken : α → Bool) (fuel start : Nat) :
    taken (firstFree candidate taken fuel start) = false ∨
      ∀ i, start ≤ i → i ≤ start + fuel → taken (candidate i) = true := by
  induction fuel generalizing start with
  | zero =>
      cases hstart : taken (candidate start) with
      | false => exact Or.inl hstart
      | true =>
          refine Or.inr fun i hlow hhigh => ?_
          obtain rfl : i = start := by omega
          exact hstart
  | succ fuel ih =>
      unfold firstFree
      split
      next hstart =>
        refine (ih (start + 1)).imp_right fun hall i hlow hhigh => ?_
        rcases Nat.eq_or_lt_of_le hlow with rfl | hlt
        · exact hstart
        · exact hall i hlt (by omega)
      next hstart => exact Or.inl (by simpa using hstart)

/-- The candidate found: every one before it is taken. -/
theorem exists_firstFree_eq (candidate : Nat → α) (taken : α → Bool) (fuel start : Nat) :
    ∃ i, i ≤ start + fuel ∧ firstFree candidate taken fuel start = candidate i ∧
      ∀ j, start ≤ j → j < i → taken (candidate j) = true := by
  induction fuel generalizing start with
  | zero => exact ⟨start, by omega, rfl, fun j hlow hhigh => by omega⟩
  | succ fuel ih =>
      unfold firstFree
      split
      next hstart =>
        obtain ⟨i, hle, heq, hall⟩ := ih (start + 1)
        refine ⟨i, by omega, heq, fun j hlow hhigh => ?_⟩
        rcases Nat.eq_or_lt_of_le hlow with rfl | hlt
        · exact hstart
        · exact hall j hlt hhigh
      next => exact ⟨start, by omega, rfl, fun j hlow hhigh => by omega⟩

/-- With pairwise different candidates, a probe as long as the list of taken
names finds a free one. -/
theorem firstFree_free [DecidableEq α] (candidate : Nat → α)
    (hinj : Function.Injective candidate) (taken : List α) :
    firstFree candidate (taken.contains ·) taken.length 0 ∉ taken := by
  rcases firstFree_free_or candidate (taken.contains ·) taken.length 0 with hfree | hall
  · simpa using hfree
  · -- all `taken.length + 1` candidates would be among the taken names
    have hsub : (Finset.range (taken.length + 1)).image candidate ⊆ taken.toFinset := by
      intro name hname
      obtain ⟨i, hi, rfl⟩ := Finset.mem_image.mp hname
      have := hall i (Nat.zero_le i) (by have := Finset.mem_range.mp hi; omega)
      simpa using this
    have hcard := Finset.card_le_card hsub
    rw [Finset.card_image_of_injective _ hinj, Finset.card_range] at hcard
    have := taken.toFinset_card_le
    omega

end Probe
