import Mathlib.Data.List.Basic
import Mathlib.Data.List.Nodup
import Mathlib.Data.List.Perm.Subperm
import Mathlib.Tactic.Common

/-! # The first elements of two stable sorts

A list sorted once by a coarse order and once by a finer one: both sorts are
stable, so where their first `k` elements differ, the differing elements tie in
the coarse order and come from the order of the list.
-/

namespace StableSort

open List

variable {α : Type}

/-- What is taken comes before what is dropped. -/
theorem pair_sublist_of_take_drop {items : List α} {k : Nat} {x y : α} (hx : x ∈ items.take k)
    (hy : y ∈ items.drop k) : [x, y] <+ items := by
  have hpair : [x] ++ [y] <+ items.take k ++ items.drop k :=
    (singleton_sublist.mpr hx).append (singleton_sublist.mpr hy)
  rwa [take_append_drop] at hpair

theorem mem_drop_of_not_mem_take {items : List α} {k : Nat} {x : α} (hx : x ∈ items)
    (hnot : x ∉ items.take k) : x ∈ items.drop k := by
  rw [← take_append_drop k items, mem_append] at hx
  exact hx.resolve_left hnot

/-- Two elements of a list come in one order or the other. -/
theorem pair_sublist_or {items : List α} {x y : α} (hx : x ∈ items) (hy : y ∈ items) (hne : x ≠ y) :
    [x, y] <+ items ∨ [y, x] <+ items := by
  induction items with
  | nil => cases hx
  | cons item rest ih =>
      rcases mem_cons.mp hx with rfl | hxrest
      · have hyrest := (mem_cons.mp hy).resolve_left (Ne.symm hne)
        exact Or.inl ((singleton_sublist.mpr hyrest).cons_cons x)
      · rcases mem_cons.mp hy with rfl | hyrest
        · exact Or.inr ((singleton_sublist.mpr hxrest).cons_cons y)
        · exact (ih hxrest hyrest).imp (fun h => h.cons item) (fun h => h.cons item)

/-- In a list without repetitions, not in both orders. -/
theorem not_pair_sublist_swap {items : List α} (hnodup : items.Nodup) {x y : α}
    (hxy : [x, y] <+ items) : ¬ [y, x] <+ items := by
  induction items with
  | nil => cases hxy
  | cons item rest ih =>
      intro hyx
      obtain ⟨hnot, hrest⟩ := nodup_cons.mp hnodup
      cases hxy with
      | cons _ hxy =>
          cases hyx with
          | cons _ hyx => exact ih hrest hxy hyx
          | cons_cons _ hyx => exact hnot (hxy.subset (by simp))
      | cons_cons _ hxy =>
          cases hyx with
          | cons _ hyx => exact hnot (hyx.subset (by simp))
          | cons_cons _ hyx => exact hnot (singleton_sublist.mp hxy)

/-- Of two lists of one length without repetitions, neither has more. -/
theorem exists_mem_not_mem {left right : List α} (hleft : left.Nodup)
    (hlength : left.length = right.length) {x : α} (hx : x ∈ right) (hnot : x ∉ left) :
    ∃ y ∈ left, y ∉ right := by
  by_contra hnone
  have hsub : left ⊆ right := by
    intro y hy
    by_contra hmissing
    exact hnone ⟨y, hy, hmissing⟩
  have hperm := (subperm_of_subset hleft hsub).perm_of_length_le (Nat.le_of_eq hlength.symm)
  exact hnot (hperm.mem_iff.mpr hx)

/-- A total preorder, as `mergeSort` takes it. -/
structure TotalPreorder (le : α → α → Bool) : Prop where
  trans : ∀ a b c, le a b → le b c → le a c
  total : ∀ a b, le a b || le b a

section One

variable {le : α → α → Bool} {items : List α}

theorem TotalPreorder.le_of_sublist (hle : TotalPreorder le) {x y : α}
    (hxy : [x, y] <+ items.mergeSort le) :
    le x y = true := by
  have hsorted := (pairwise_mergeSort hle.trans hle.total items).sublist hxy
  simpa using hsorted

/-- Ties keep the order of the list, also read backwards. -/
theorem TotalPreorder.sublist_of_tie (hle : TotalPreorder le) (hnodup : items.Nodup) {x y : α}
    (hxy : [x, y] <+ items.mergeSort le) (htie : le y x = true) : [x, y] <+ items := by
  have hsorted : (items.mergeSort le).Nodup := (mergeSort_perm items le).nodup_iff.mpr hnodup
  have hne : x ≠ y := by
    have hpair := hsorted.sublist hxy
    simpa using hpair
  have hmem : ∀ z ∈ [x, y], z ∈ items := fun z hz => mem_mergeSort.mp (hxy.subset hz)
  refine (pair_sublist_or (hmem x (by simp)) (hmem y (by simp)) hne).resolve_right ?_
  intro hyx
  exact not_pair_sublist_swap hsorted hxy (pair_sublist_mergeSort hle.trans hle.total htie hyx)

/-- Of two ties, the first `k` have the later one only with the earlier one. -/
theorem TotalPreorder.mem_take_of_tie (hle : TotalPreorder le) (hnodup : items.Nodup) {k : Nat}
    {x y : α}
    (hxy : [x, y] <+ items) (htie : le x y = true) (hy : y ∈ (items.mergeSort le).take k) :
    x ∈ (items.mergeSort le).take k := by
  by_contra hnot
  have hsorted : (items.mergeSort le).Nodup := (mergeSort_perm items le).nodup_iff.mpr hnodup
  have hx : x ∈ items.mergeSort le := mem_mergeSort.mpr (hxy.subset (by simp))
  have hyx := pair_sublist_of_take_drop hy (mem_drop_of_not_mem_take hx hnot)
  exact not_pair_sublist_swap hsorted (pair_sublist_mergeSort hle.trans hle.total htie hxy) hyx

end One

section Two

variable {coarse fine : α → α → Bool} {items : List α} {k : Nat}

theorem nodup_take_mergeSort (le : α → α → Bool) (hnodup : items.Nodup) (k : Nat) :
    ((items.mergeSort le).take k).Nodup :=
  ((mergeSort_perm items le).nodup_iff.mpr hnodup).sublist (take_sublist _ _)

/-- An element the coarse sort has among its first `k` and the other has not
ties with one it is the other way round with, and comes before it in the list. -/
theorem tie_of_mismatch (hcoarse : TotalPreorder coarse) (hfine : TotalPreorder fine)
    (hrefines : ∀ a b, fine a b = true → coarse a b = true) (hnodup : items.Nodup) {x y : α}
    (hx : x ∈ (items.mergeSort coarse).take k) (hxnot : x ∉ (items.mergeSort fine).take k)
    (hy : y ∈ (items.mergeSort fine).take k) (hynot : y ∉ (items.mergeSort coarse).take k) :
    coarse x y = true ∧ coarse y x = true ∧ [x, y] <+ items := by
  have hxall : x ∈ items := mem_mergeSort.mp (mem_of_mem_take hx)
  have hyall : y ∈ items := mem_mergeSort.mp (mem_of_mem_take hy)
  have hxy : [x, y] <+ items.mergeSort coarse :=
    pair_sublist_of_take_drop hx (mem_drop_of_not_mem_take (mem_mergeSort.mpr hyall) hynot)
  have hyx : [y, x] <+ items.mergeSort fine :=
    pair_sublist_of_take_drop hy (mem_drop_of_not_mem_take (mem_mergeSort.mpr hxall) hxnot)
  have htie := hrefines y x (hfine.le_of_sublist hyx)
  exact ⟨hcoarse.le_of_sublist hxy, htie, hcoarse.sublist_of_tie hnodup hxy htie⟩

theorem exists_mismatch (le other : α → α → Bool) (hnodup : items.Nodup) {x : α}
    (hx : x ∈ (items.mergeSort le).take k) (hnot : x ∉ (items.mergeSort other).take k) :
    ∃ y ∈ (items.mergeSort other).take k, y ∉ (items.mergeSort le).take k :=
  exists_mem_not_mem (nodup_take_mergeSort other hnodup k) (by simp) hx hnot

end Two

end StableSort
